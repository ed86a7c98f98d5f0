import ControlVoltage.Proofs.Program.Declarations
import ControlVoltage.Proofs.Program.Laid
import Mathlib.Data.List.Basic

/-!
# Well-formed scores

Which scores the compiler accepts, said of the score alone. What the compiler checks on its way down,
with the depth, the nesting and the cells passed along, is here one condition each on everything
that the score contains.

* `Score.WellFormed` : the conditions.
* `Value.formula_ok_iff`, `laid_iff` : values, and the layout of a body.
* `compile_ok_iff` : exactly the well-formed scores compile.
-/

namespace ControlVoltage

open Score (Node Value)
open Program (Laid)

namespace Score

/-- The operators, each with the number of its operands. -/
def arities : List (String × Nat) :=
  [("neg", 1), ("add", 2), ("sub", 2), ("mul", 2), ("div", 2), ("mod", 2), ("mutate", 2)]

/-- The tags of the curves, in the form in which they are compared. -/
def curveTags : List String :=
  ["linear", "lin", "sine", "sin", "log", "logarithmic", "exp", "expo", "exponential", "now", "wait"]

/-- What a score has to keep to. -/
structure WellFormed (score : List Node) : Prop where
  /-- The score itself counts as the first level. -/
  shallow : height score + 1 ≤ Program.maxDepth
  /-- The score itself counts as a block. -/
  few : controls score + 1 ≤ Program.maxBlocks
  heldOnce : ∀ body, .held body ∈ nodes score → ∀ inner, .held inner ∉ nodes body
  lockOnce : ∀ body, .lock body ∈ nodes score → ∀ inner, .lock inner ∉ nodes body
  loops : ∀ body, .loop body ∈ nodes score → ∃ node ∈ nodes body, node.isRamp = true
  times : ∀ count body, .times count body ∈ nodes score → 0 < count
  durations : ∀ volts x tag, .ramp volts (.lit x) tag ∈ nodes score → ¬ x < 0
  tags : ∀ volts time tag, .ramp volts time tag ∈ nodes score → Curve.normalTag tag ∈ curveTags
  literals : ∀ x, .lit x ∈ values score → x.isFinite = true
  operators : ∀ name args, .op name args ∈ values score → (name, args.length) ∈ arities
  targets : ∀ args, .op "mutate" args ∈ values score →
    ∃ name default rest, args = .var name default :: rest
  references : ∀ name default, .var name default ∈ values score →
    ∃ initial, .var name (some initial) ∈ values score
  /-- Only the first default of a name counts. -/
  defaults : ∀ name initial, (declarations score).lookup name = some initial →
    initial.isFinite = true
  cells : ((declarations score).map Prod.fst).eraseDups.length ≤ Cells.maxCells

/-! ## One value, one node -/

/-- What a value keeps to apart from the values inside it, where cells have these names. -/
def Value.Fits (names : List String) : Value → Prop
  | .lit x => x.isFinite = true
  | .var name _ => name ∈ names
  | .op name args =>
    (name, args.length) ∈ arities ∧
      (name = "mutate" → ∃ target default rest, args = .var target default :: rest)

/-- What a node keeps to apart from the nodes inside it, where cells have these names. -/
def Node.Fits (names : List String) : Node → Prop
  | .ramp volts time tag =>
    (∀ v ∈ volts.parts ++ time.parts, v.Fits names) ∧ (∀ x, time = .lit x → ¬ x < 0) ∧
      Curve.normalTag tag ∈ curveTags
  | .seq _ => True
  | .loop body => ∃ node ∈ Score.nodes body, node.isRamp = true
  | .held body => ∀ inner, .held inner ∉ Score.nodes body
  | .lock body => ∀ inner, .lock inner ∉ Score.nodes body
  | .times count _ => 0 < count
  | .when condition _ => ∀ v ∈ condition.parts, v.Fits names

end Score

/-! ## Values -/

theorem mem_arities_iff {name : String} {n : Nat} :
    (name, n) ∈ Score.arities ↔ ∃ op, OperatorName.ofName? name = some op ∧ n = op.arity := by
  unfold OperatorName.ofName?
  split <;> simp_all [Score.arities, OperatorName.arity]

theorem Score.Value.fits_op_iff {names : List String} {name : String} {args : List Value} :
    (Value.op name args).Fits names ↔
      (∃ op, OperatorName.ofName? name = some op ∧ args.length = op.arity) ∧
        (name = "mutate" → ∃ target default rest, args = .var target default :: rest) := by
  rw [Value.Fits, mem_arities_iff]

theorem formula_op_ok {s : Cells} {name : String} {args : List Value} {op : OperatorName}
    (hop : OperatorName.ofName? name = some op) (harity : args.length = op.arity)
    (hargs : ∀ v ∈ args, ∃ f, v.formula s = .ok f)
    (htarget : op = .mutate → ∃ target default rest, args = .var target default :: rest) :
    ∃ f, (Value.op name args).formula s = .ok f := by
  simp only [Score.Value.formula, hop, harity, ne_eq, not_true_eq_false, if_false]
  cases op with
  | negate =>
    obtain ⟨a, rfl⟩ := List.length_eq_one_iff.1 harity
    obtain ⟨f, hf⟩ := hargs a (by simp)
    exact ⟨.neg f, by simp [Score.operands, hf, OperatorName.apply]⟩
  | binary op =>
    obtain ⟨a, b, rfl⟩ := List.length_eq_two.1 harity
    obtain ⟨f, hf⟩ := hargs a (by simp)
    obtain ⟨g, hg⟩ := hargs b (by simp)
    exact ⟨.binary op f g, by simp [Score.operands, hf, hg, OperatorName.apply]⟩
  | mutate =>
    obtain ⟨target, default, rest, rfl⟩ := htarget rfl
    obtain ⟨b, rfl⟩ : ∃ b, rest = [b] := List.length_eq_one_iff.1 (Nat.succ.inj harity)
    obtain ⟨g, hg⟩ := hargs b (by simp)
    obtain ⟨f, hf⟩ := hargs (.var target default) (by simp)
    obtain ⟨i, rfl⟩ : ∃ i, f = .cell i := by
      simp only [Score.Value.formula] at hf
      split at hf
      · cases hf
        exact ⟨_, rfl⟩
      · cases hf
    exact ⟨.mutate i g, by simp [Score.operands, hf, hg, Formula.isCell, OperatorName.apply]⟩

mutual

theorem Score.Value.formula_ok_iff {s : Cells} :
    ∀ v : Value, (∃ f, v.formula s = .ok f) ↔ ∀ u ∈ v.parts, u.Fits s.names
  | .lit x => by
    cases hx : x.isFinite <;> simp [Score.Value.formula, Value.parts, Value.Fits, hx]
  | .var name default => by
    have known : s.find? name = none ↔ name ∉ s.names := Cells.find?_eq_none_iff
    cases hi : s.find? name <;>
      simp_all [Score.Value.formula, Value.parts, Value.Fits]
  | .op name args => by
    have inner := operands_ok_iff (s := s) args
    simp only [Value.parts, List.forall_mem_cons, Value.fits_op_iff]
    constructor
    · rintro ⟨f, hf⟩
      rcases formula_op hf with ⟨a, fa, hop, rfl, ha, -⟩ | ⟨op, a, b, fa, fb, hop, rfl, ha, hb, -⟩ |
        ⟨target, initial, i, b, fb, hop, rfl, hi, hb, -⟩
      · refine ⟨⟨⟨_, hop, rfl⟩, fun hmutate => ?_⟩, inner.1 (by simp [ha])⟩
        rw [hmutate] at hop
        cases hop
      · refine ⟨⟨⟨_, hop, rfl⟩, fun hmutate => ?_⟩, inner.1 (by simp [ha, hb])⟩
        rw [hmutate] at hop
        cases hop
      · exact ⟨⟨⟨_, hop, rfl⟩, fun _ => ⟨_, _, _, rfl⟩⟩,
          inner.1 (by simp [Score.Value.formula, hi, hb])⟩
    · rintro ⟨⟨⟨op, hop, harity⟩, htarget⟩, hargs⟩
      refine formula_op_ok hop harity (inner.2 hargs) ?_
      rintro rfl
      exact htarget (OperatorName.ofName?_eq_some_iff.1 hop)

theorem operands_ok_iff {s : Cells} :
    ∀ args : List Value,
      (∀ v ∈ args, ∃ f, v.formula s = .ok f) ↔ ∀ u ∈ Score.parts args, u.Fits s.names
  | [] => by simp [Score.parts]
  | v :: rest => by
    rw [List.forall_mem_cons, Score.Value.formula_ok_iff v, operands_ok_iff rest, Score.parts,
      List.forall_mem_append]

end

theorem lit_of_formula_lit {s : Cells} {v : Value} {x : Float32} (h : v.formula s = .ok (.lit x)) :
    v = .lit x := by
  cases v with
  | lit y =>
    simp only [Score.Value.formula] at h
    split at h <;> cases h
    rfl
  | var name default =>
    simp only [Score.Value.formula] at h
    split at h <;> cases h
  | op name args =>
    rcases formula_op h with ⟨_, _, _, _, _, hf⟩ | ⟨_, _, _, _, _, _, _, _, _, hf⟩ |
      ⟨_, _, _, _, _, _, _, _, _, hf⟩ <;> cases hf

theorem Curve.parse_ok_iff {tag : String} :
    (∃ curve, Curve.parse tag = .ok curve) ↔ Curve.normalTag tag ∈ Score.curveTags := by
  have known : ∀ normal, (∃ curve, Curve.ofTag? normal = some curve) ↔ normal ∈ Score.curveTags := by
    intro normal
    unfold Curve.ofTag?
    split <;> simp_all [Score.curveTags]
  rw [← known]
  unfold Curve.parse
  cases Curve.ofTag? (Curve.normalTag tag) <;> simp

/-! ## Nodes -/

theorem Score.Node.ramp_fits_iff {s : Cells} {volts time : Value} {tag : String} :
    (Node.ramp volts time tag).Fits s.names ↔
      ∃ v t curve, volts.formula s = .ok v ∧ time.formula s = .ok t ∧
        (∀ seconds, t = .lit seconds → ¬ seconds < 0) ∧ Curve.parse tag = .ok curve := by
  rw [Node.Fits, List.forall_mem_append, ← Score.Value.formula_ok_iff, ← Score.Value.formula_ok_iff,
    ← Curve.parse_ok_iff]
  constructor
  · rintro ⟨⟨⟨v, hv⟩, t, ht⟩, hlong, curve, hcurve⟩
    refine ⟨v, t, curve, hv, ht, ?_, hcurve⟩
    rintro seconds rfl
    exact hlong seconds (lit_of_formula_lit ht)
  · rintro ⟨v, t, curve, hv, ht, hlong, hcurve⟩
    refine ⟨⟨⟨v, hv⟩, t, ht⟩, ?_, curve, hcurve⟩
    rintro x rfl
    refine hlong x ?_
    simp only [Score.Value.formula] at ht
    split at ht <;> cases ht
    rfl

/-- Whether the nodes hold none of those that are around them already. -/
def Nesting.Allows (around : Nesting) (nodes : List Node) : Prop :=
  (around.held = true → ∀ inner, .held inner ∉ nodes) ∧
    (around.locked = true → ∀ inner, .lock inner ∉ nodes)

theorem Nesting.allows_append {around : Nesting} {xs ys : List Node} :
    around.Allows (xs ++ ys) ↔ around.Allows xs ∧ around.Allows ys := by
  simp only [Nesting.Allows, List.mem_append, not_or, forall_and]
  exact and_and_and_comm

theorem opens_and_allows_iff {s : Cells} {around : Nesting} {node : Node}
    (h : node.isControl = true) :
    (∃ kind, node.opens? s around = some kind) ∧
        (node.inside around).Allows (Score.nodes node.body) ↔
      node.Fits s.names ∧ around.Allows [node] ∧ around.Allows (Score.nodes node.body) := by
  cases node with
  | ramp volts time tag => cases h
  | seq body => simp [Node.opens?, Node.inside, Node.Fits, Node.body, Nesting.Allows]
  | loop body =>
    simp [Node.opens?, Node.inside, Node.Fits, Node.body, Nesting.Allows, Score.hasRamp_iff]
  | held body =>
    cases hheld : around.held <;>
      simp [Node.opens?, Node.inside, Node.Fits, Node.body, Nesting.Allows, hheld]
  | lock body =>
    cases hlocked : around.locked <;>
      simp [Node.opens?, Node.inside, Node.Fits, Node.body, Nesting.Allows, hlocked, and_comm]
  | times count body =>
    simp [Node.opens?, Node.inside, Node.Fits, Node.body, Nesting.Allows, Nat.pos_iff_ne_zero]
  | when condition body =>
    simp only [Node.opens?, Node.inside, Node.Fits, Node.body, Nesting.Allows,
      ← Score.Value.formula_ok_iff]
    cases condition.formula s <;> simp

/-! ## Bodies -/

theorem laid_ramp_ok_iff {s : Cells} {depth next : Nat} {around : Nesting} {volts time : Value}
    {tag : String} {rest : List Node} :
    (∃ ops blocks, Laid s depth around next (.ramp volts time tag :: rest) ops blocks) ↔
      (Node.ramp volts time tag).Fits s.names ∧
        ∃ ops blocks, Laid s depth around next rest ops blocks := by
  rw [Node.ramp_fits_iff]
  constructor
  · rintro ⟨_, _, laid⟩
    cases laid with
    | ramp hvolts htime hlong hcurve rest =>
      exact ⟨⟨_, _, _, hvolts, htime, hlong, hcurve⟩, _, _, rest⟩
    | control hcontrol => cases hcontrol
  · rintro ⟨⟨v, t, curve, hvolts, htime, hlong, hcurve⟩, ops, blocks, rest⟩
    exact ⟨_, _, .ramp hvolts htime hlong hcurve rest⟩

theorem laid_control_ok_iff {s : Cells} {depth next : Nat} {around : Nesting} {node : Node}
    {rest : List Node} (hcontrol : node.isControl = true) :
    (∃ ops blocks, Laid s depth around next (node :: rest) ops blocks) ↔
      (∃ kind, node.opens? s around = some kind) ∧ depth ≤ Program.maxDepth ∧
        next < Program.maxBlocks ∧
        (∃ ops blocks, Laid s (depth + 1) (node.inside around) (next + 1) node.body ops blocks) ∧
        ∃ ops blocks,
          Laid s depth around (next + (Score.controls node.body + 1)) rest ops blocks := by
  constructor
  · rintro ⟨_, _, laid⟩
    cases laid with
    | ramp => cases hcontrol
    | control _ hopens hdepth hnext inside rest =>
      rw [inside.length_blocks] at rest
      exact ⟨⟨_, hopens⟩, hdepth, hnext, ⟨_, _, inside⟩, _, _, rest⟩
  · rintro ⟨⟨kind, hopens⟩, hdepth, hnext, ⟨inner, innerBlocks, inside⟩, ops, blocks, rest⟩
    rw [← inside.length_blocks] at rest
    exact ⟨_, _, .control hcontrol hopens hdepth hnext inside rest⟩

/-- A body can be laid out if each node in it fits and there is room for all of them. -/
theorem laid_iff {s : Cells} {depth next : Nat} {around : Nesting} {body : List Node}
    (hdepth : depth ≤ Program.maxDepth + 1) (hnext : next ≤ Program.maxBlocks) :
    (∃ ops blocks, Laid s depth around next body ops blocks) ↔
      (∀ node ∈ Score.nodes body, node.Fits s.names) ∧ around.Allows (Score.nodes body) ∧
        depth + Score.height body ≤ Program.maxDepth + 1 ∧
        next + Score.controls body ≤ Program.maxBlocks := by
  induction body using Score.induction generalizing depth around next with
  | nil =>
    have laid : ∃ ops blocks, Laid s depth around next [] ops blocks := ⟨[], [], .nil⟩
    simp [laid, Nesting.Allows, hdepth, hnext]
  | ramp volts time tag rest ih =>
    have halone : around.Allows [.ramp volts time tag] := by simp [Nesting.Allows]
    have hnodes : Score.nodes (.ramp volts time tag :: rest) =
        [.ramp volts time tag] ++ Score.nodes rest := by simp [Node.body]
    have hcontrols : Score.controls (.ramp volts time tag :: rest) = Score.controls rest := by
      simp [Node.body, Node.isControl]
    rw [laid_ramp_ok_iff, ih hdepth hnext, hnodes, hcontrols, Score.height_cons_ramp,
      List.forall_mem_append, List.forall_mem_singleton, Nesting.allows_append]
    simp only [halone, true_and, and_assoc]
  | control node rest hcontrol ihbody ihrest =>
    have hnodes : Score.nodes (node :: rest) = [node] ++ Score.nodes node.body ++ Score.nodes rest := by
      simp
    have hcontrols : Score.controls (node :: rest) =
        1 + Score.controls node.body + Score.controls rest := by
      simp [hcontrol]
    rw [laid_control_ok_iff hcontrol, hnodes, hcontrols, Score.height_cons_control hcontrol,
      List.forall_mem_append, List.forall_mem_append, List.forall_mem_singleton,
      Nesting.allows_append, Nesting.allows_append]
    constructor
    · rintro ⟨hopens, hdepth', hnext', inside, after⟩
      obtain ⟨bodyFits, bodyAllows, bodyDepth, bodyNext⟩ := (ihbody (by omega) hnext').1 inside
      obtain ⟨restFits, restAllows, restDepth, restNext⟩ := (ihrest hdepth (by omega)).1 after
      obtain ⟨fits, allows, allowsBody⟩ := (opens_and_allows_iff hcontrol).1 ⟨hopens, bodyAllows⟩
      exact ⟨⟨⟨fits, bodyFits⟩, restFits⟩, ⟨⟨allows, allowsBody⟩, restAllows⟩, by omega, by omega⟩
    · rintro ⟨⟨⟨fits, bodyFits⟩, restFits⟩, ⟨⟨allows, allowsBody⟩, restAllows⟩, deep, many⟩
      obtain ⟨hopens, bodyAllows⟩ := (opens_and_allows_iff hcontrol).2 ⟨fits, allows, allowsBody⟩
      refine ⟨hopens, by omega, by omega, ?_, ?_⟩
      · exact (ihbody (by omega) (by omega)).2 ⟨bodyFits, bodyAllows, by omega, by omega⟩
      · exact (ihrest hdepth (by omega)).2 ⟨restFits, restAllows, by omega, by omega⟩

/-! ## Scores -/

theorem mem_names_iff {score : List Node} {name : String} :
    name ∈ ((Score.declarations score).map Prod.fst).eraseDups ↔
      ∃ initial, .var name (some initial) ∈ Score.values score := by
  simp [List.mem_eraseDups, Score.mem_declarations]

theorem Score.mem_values_iff {score : List Node} {v : Value} :
    v ∈ Score.values score ↔ ∃ node ∈ Score.nodes score, v ∈ node.values := by
  simp [Score.values]

theorem Score.Node.Fits.values {names : List String} {node : Node} (h : node.Fits names) :
    ∀ v ∈ node.values, v.Fits names := by
  cases node with
  | ramp volts time tag => exact h.1
  | when condition body => exact h
  | _ => simp [Node.values]

theorem Score.WellFormed.fits_of_mem_values {score : List Node} (h : Score.WellFormed score)
    {v : Value} (hv : v ∈ Score.values score) :
    v.Fits ((Score.declarations score).map Prod.fst).eraseDups := by
  cases v with
  | lit x => exact h.literals x hv
  | var name default => exact mem_names_iff.2 (h.references name default hv)
  | op name args =>
    refine ⟨h.operators name args hv, ?_⟩
    rintro rfl
    exact h.targets args hv

theorem Score.WellFormed.fits_of_mem_nodes {score : List Node} (h : Score.WellFormed score)
    {node : Node} (hnode : node ∈ Score.nodes score) :
    node.Fits ((Score.declarations score).map Prod.fst).eraseDups := by
  have hvalues : ∀ v ∈ node.values, v.Fits ((Score.declarations score).map Prod.fst).eraseDups :=
    fun v hv => h.fits_of_mem_values (Score.mem_values_iff.2 ⟨node, hnode, hv⟩)
  cases node with
  | ramp volts time tag =>
    refine ⟨hvalues, ?_, h.tags volts time tag hnode⟩
    rintro x rfl
    exact h.durations volts x tag hnode
  | seq body => trivial
  | loop body => exact h.loops body hnode
  | held body => exact h.heldOnce body hnode
  | lock body => exact h.lockOnce body hnode
  | times count body => exact h.times count body hnode
  | when condition body => exact hvalues

theorem Score.wellFormed_iff {score : List Node} :
    Score.WellFormed score ↔
      Cells.Declarable (Score.declarations score) ∧
        (∀ node ∈ Score.nodes score,
          node.Fits ((Score.declarations score).map Prod.fst).eraseDups) ∧
        height score + 1 ≤ Program.maxDepth ∧ controls score + 1 ≤ Program.maxBlocks := by
  constructor
  · intro h
    exact ⟨⟨h.defaults, h.cells⟩, fun node => h.fits_of_mem_nodes, h.shallow, h.few⟩
  · rintro ⟨⟨finite, cells⟩, fits, shallow, few⟩
    have valueFits : ∀ v ∈ values score,
        v.Fits ((declarations score).map Prod.fst).eraseDups := by
      intro v hv
      obtain ⟨node, hnode, hv⟩ := mem_values_iff.1 hv
      exact (fits node hnode).values v hv
    exact {
      shallow := shallow
      few := few
      heldOnce := fun body => fits (.held body)
      lockOnce := fun body => fits (.lock body)
      loops := fun body => fits (.loop body)
      times := fun count body => fits (.times count body)
      durations := fun volts x tag h => (fits (.ramp volts (.lit x) tag) h).2.1 x rfl
      tags := fun volts time tag h => (fits (.ramp volts time tag) h).2.2
      literals := fun x => valueFits (.lit x)
      operators := fun name args h => (valueFits (.op name args) h).1
      targets := fun args h => (valueFits (.op "mutate" args) h).2 rfl
      references := fun name default h => mem_names_iff.1 (valueFits (.var name default) h)
      defaults := finite
      cells := cells }

/-- Exactly the well-formed scores compile. -/
theorem compile_ok_iff {score : List Node} :
    (∃ p, Program.compile score = .ok p) ↔ Score.WellFormed score := by
  rw [Score.wellFormed_iff, ← Cells.names_ofDeclarations]
  have hroom : (∃ ops blocks,
      Laid (.ofDeclarations (Score.declarations score)) 2 ⟨false, false⟩ 1 score ops blocks) ↔ _ :=
    laid_iff (by decide) (by decide)
  have halone : Nesting.Allows ⟨false, false⟩ (Score.nodes score) := by simp [Nesting.Allows]
  simp only [Program.compile_eq_ok_iff, Cells.declareAll_eq, Cells.declareList_eq_ok_iff]
  constructor
  · rintro ⟨p, ⟨hdeclarable, hcells⟩, ops, blocks, -, laid⟩
    rw [hcells] at laid
    obtain ⟨fits, -, deep, many⟩ := hroom.1 ⟨ops, blocks, laid⟩
    exact ⟨hdeclarable, fits, by omega, by omega⟩
  · rintro ⟨hdeclarable, fits, shallow, few⟩
    obtain ⟨ops, blocks, laid⟩ := hroom.2 ⟨fits, halone, by omega, by omega⟩
    exact ⟨⟨_, _⟩, ⟨hdeclarable, rfl⟩, ops, blocks, rfl, laid⟩

end ControlVoltage

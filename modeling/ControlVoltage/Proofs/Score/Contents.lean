import ControlVoltage.Program.Compile

/-!
# What is in a score

A score as a tree, told by lists: its nodes, the values in it and the declarations among them, each
in document order.

* `Node.body` : the nodes directly inside a control node.
* `Score.nodes`, `Score.values`, `Score.declarations` : everything in a score, at any depth.
* `Score.height`, `Score.controls`, `Score.ramps` : how deep it nests, and how many nodes of each
  sort it has.
* `Score.induction` : induction over a score, with control nodes as one case.
-/

namespace ControlVoltage.Score

/-! ## Values -/

mutual

/-- A value with the values inside it. -/
def Value.parts : Value → List Value
  | .lit x => [.lit x]
  | .var name default => [.var name default]
  | .op name args => .op name args :: parts args

def parts : List Value → List Value
  | [] => []
  | v :: rest => v.parts ++ parts rest

end

/-- The name and the default that a value declares. -/
def Value.declaration? : Value → Option (String × Float32)
  | .var name (some initial) => some (name, initial)
  | _ => none

theorem declaration?_eq_some_iff {v : Value} {d : String × Float32} :
    v.declaration? = some d ↔ v = .var d.1 (some d.2) := by
  obtain ⟨name, initial⟩ := d
  cases v with
  | var target default => cases default <;> simp [Value.declaration?]
  | _ => simp [Value.declaration?]

/-! ## Nodes -/

def Node.isControl : Node → Bool
  | .ramp .. => false
  | _ => true

def Node.isRamp (node : Node) : Bool := !node.isControl

/-- The nodes directly inside a node. -/
def Node.body : Node → List Node
  | .ramp .. => []
  | .seq body => body
  | .loop body => body
  | .held body => body
  | .lock body => body
  | .times _ body => body
  | .when _ body => body

/-- The values of a node itself: volts before time, or a condition. -/
def Node.values : Node → List Value
  | .ramp volts time _ => volts.parts ++ time.parts
  | .when condition _ => condition.parts
  | _ => []

/-- Induction over a score. A control node is taken together with the nodes after it. -/
@[elab_as_elim]
theorem induction {P : List Node → Prop} (nil : P [])
    (ramp : ∀ volts time tag rest, P rest → P (.ramp volts time tag :: rest))
    (control : ∀ node rest, node.isControl = true → P node.body → P rest → P (node :: rest)) :
    ∀ score, P score
  | [] => nil
  | .ramp volts time tag :: rest => ramp volts time tag rest (induction nil ramp control rest)
  | .seq body :: rest =>
    control (.seq body) rest rfl (induction nil ramp control body) (induction nil ramp control rest)
  | .loop body :: rest =>
    control (.loop body) rest rfl (induction nil ramp control body) (induction nil ramp control rest)
  | .held body :: rest =>
    control (.held body) rest rfl (induction nil ramp control body) (induction nil ramp control rest)
  | .lock body :: rest =>
    control (.lock body) rest rfl (induction nil ramp control body) (induction nil ramp control rest)
  | .times count body :: rest =>
    control (.times count body) rest rfl (induction nil ramp control body)
      (induction nil ramp control rest)
  | .when condition body :: rest =>
    control (.when condition body) rest rfl (induction nil ramp control body)
      (induction nil ramp control rest)

/-! ## Contents -/

mutual

/-- A node and all nodes below it. -/
def Node.nodes : Node → List Node
  | .ramp volts time tag => [.ramp volts time tag]
  | .seq body => .seq body :: nodes body
  | .loop body => .loop body :: nodes body
  | .held body => .held body :: nodes body
  | .lock body => .lock body :: nodes body
  | .times count body => .times count body :: nodes body
  | .when condition body => .when condition body :: nodes body

def nodes : List Node → List Node
  | [] => []
  | node :: rest => node.nodes ++ nodes rest

end

def values (score : List Node) : List Value := (nodes score).flatMap Node.values

/-- All declarations of a score, repeated ones included. -/
def declarations (score : List Node) : List (String × Float32) :=
  (values score).filterMap Value.declaration?

def controls (score : List Node) : Nat := (nodes score).countP Node.isControl

def ramps (score : List Node) : Nat := (nodes score).countP Node.isRamp

mutual

/-- How many control nodes lie around each other, the node itself included. -/
def Node.height : Node → Nat
  | .ramp .. => 0
  | .seq body => height body + 1
  | .loop body => height body + 1
  | .held body => height body + 1
  | .lock body => height body + 1
  | .times _ body => height body + 1
  | .when _ body => height body + 1

/-- How many control nodes lie around each other at most. -/
def height : List Node → Nat
  | [] => 0
  | node :: rest => max node.height (height rest)

end

@[simp] theorem nodes_nil : nodes [] = [] := by
  simp [nodes]

@[simp] theorem nodes_cons (node : Node) (rest : List Node) :
    nodes (node :: rest) = node :: nodes node.body ++ nodes rest := by
  cases node <;> simp [nodes, Node.nodes, Node.body]

@[simp] theorem values_nil : values [] = [] := by
  simp [values]

@[simp] theorem values_cons (node : Node) (rest : List Node) :
    values (node :: rest) = node.values ++ values node.body ++ values rest := by
  simp [values]

@[simp] theorem declarations_nil : declarations [] = [] := by
  simp [declarations]

@[simp] theorem declarations_cons (node : Node) (rest : List Node) :
    declarations (node :: rest) =
      node.values.filterMap Value.declaration? ++ declarations node.body ++ declarations rest := by
  simp [declarations]

@[simp] theorem controls_nil : controls [] = 0 := by
  simp [controls]

@[simp] theorem controls_cons (node : Node) (rest : List Node) :
    controls (node :: rest) =
      (if node.isControl then 1 else 0) + controls node.body + controls rest := by
  simp only [controls, nodes_cons, List.cons_append, List.countP_cons, List.countP_append]
  omega

@[simp] theorem ramps_nil : ramps [] = 0 := by
  simp [ramps]

@[simp] theorem ramps_cons (node : Node) (rest : List Node) :
    ramps (node :: rest) = (if node.isRamp then 1 else 0) + ramps node.body + ramps rest := by
  simp only [ramps, nodes_cons, List.cons_append, List.countP_cons, List.countP_append]
  omega

@[simp] theorem height_nil : height [] = 0 := by
  simp [height]

theorem height_cons_ramp (volts time : Value) (tag : String) (rest : List Node) :
    height (.ramp volts time tag :: rest) = height rest := by
  simp [height, Node.height]

theorem height_cons_control {node : Node} (h : node.isControl = true) (rest : List Node) :
    height (node :: rest) = max (height node.body + 1) (height rest) := by
  cases node with
  | ramp volts time tag => cases h
  | _ => simp [height, Node.height, Node.body]

theorem mem_declarations {score : List Node} {name : String} {initial : Float32} :
    (name, initial) ∈ declarations score ↔ .var name (some initial) ∈ values score := by
  simp [declarations, declaration?_eq_some_iff]

theorem hasRamp_iff (score : List Node) :
    hasRamp score = true ↔ ∃ node ∈ nodes score, node.isRamp = true := by
  induction score using Score.induction with
  | nil => simp [hasRamp]
  | ramp volts time tag rest ih => simp [hasRamp, Node.hasRamp, Node.isRamp, Node.isControl]
  | control node rest hcontrol ihbody ihrest =>
    have hnode : node.hasRamp = hasRamp node.body := by
      cases node with
      | ramp volts time tag => cases hcontrol
      | _ => simp [Node.hasRamp, Node.body]
    have hself : node.isRamp = false := by simp [Node.isRamp, hcontrol]
    simp [hasRamp, hnode, hself, ihbody, ihrest, or_and_right, exists_or]

end ControlVoltage.Score

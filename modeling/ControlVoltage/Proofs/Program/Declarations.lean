import ControlVoltage.Proofs.Program.Formula
import ControlVoltage.Proofs.Score.Contents
import Mathlib.Data.List.Induction
import Mathlib.Tactic.ByContra

/-!
# Declarations

Declaring the cells of a score is declaring them one by one, in document order. What comes out has a
cell for each name in the order in which the names come first, with the first value declared.

* `Cells.declareAll_eq` : one by one.
* `Cells.Declarable` : what the declarations have to keep to.
* `Cells.declareList_eq_ok_iff` : what they come to, and when.
-/

namespace ControlVoltage

open Score (Node Value)

namespace Cells

def declareList (s : Cells) (ds : List (String × Float32)) : Except SetupError Cells :=
  ds.foldlM (fun s d => (s.declare d.1 d.2).map (·.2)) s

@[simp] theorem declareList_nil (s : Cells) : s.declareList [] = .ok s := rfl

theorem declareList_append (s : Cells) (ds ds' : List (String × Float32)) :
    s.declareList (ds ++ ds') =
      match s.declareList ds with
      | .error e => .error e
      | .ok s => s.declareList ds' := by
  rw [declareList, List.foldlM_append]
  cases hds : s.declareList ds <;> rw [declareList] at hds <;> rw [hds] <;> rfl

theorem declareList_singleton (s : Cells) (d : String × Float32) :
    s.declareList [d] = (s.declare d.1 d.2).map (·.2) := by
  cases h : (s.declare d.1 d.2).map (·.2) <;> simp only [declareList, List.foldlM, h] <;> rfl

mutual

theorem declareValue_eq : ∀ (v : Value) (s : Cells),
    s.declareValue v = s.declareList (v.parts.filterMap Value.declaration?)
  | .lit x, s => by
    rw [declareValue, Value.parts]
    rfl
  | .var name (some initial), s => by
    simp only [declareValue, Value.parts, List.filterMap_cons, Value.declaration?, List.filterMap_nil]
    exact (declareList_singleton s (name, initial)).symm
  | .var name none, s => by
    rw [declareValue, Value.parts]
    rfl
  | .op name args, s => by
    simp only [declareValue, Value.parts, List.filterMap_cons, Value.declaration?]
    exact declareValues_eq args s

theorem declareValues_eq : ∀ (args : List Value) (s : Cells),
    s.declareValues args = s.declareList ((Score.parts args).filterMap Value.declaration?)
  | [], s => by simp [declareValues, Score.parts]
  | v :: rest, s => by
    rw [declareValues, Score.parts, List.filterMap_append, declareList_append, declareValue_eq v s]
    cases s.declareList (v.parts.filterMap Value.declaration?) with
    | error e => rfl
    | ok s => exact declareValues_eq rest s

end

theorem declareNode_control {node : Node} (h : node.isControl = true) (s : Cells) :
    s.declareNode node =
      match s.declareList (node.values.filterMap Value.declaration?) with
      | .error e => .error e
      | .ok s => s.declareAll node.body := by
  cases node with
  | ramp volts time tag => cases h
  | when condition body =>
    rw [declareNode, declareValue_eq]
    rfl
  | _ =>
    rw [declareNode]
    rfl

theorem declareAll_eq (score : List Node) (s : Cells) :
    s.declareAll score = s.declareList (Score.declarations score) := by
  induction score using Score.induction generalizing s with
  | nil => simp [declareAll]
  | ramp volts time tag rest ih =>
    have hnode : s.declareNode (.ramp volts time tag) =
        s.declareList ((Node.ramp volts time tag).values.filterMap Value.declaration?) := by
      rw [declareNode, declareValues_eq]
      simp [Node.values, Score.parts]
    rw [declareAll, hnode, Score.declarations_cons, List.append_assoc, declareList_append]
    cases s.declareList ((Node.ramp volts time tag).values.filterMap Value.declaration?) with
    | error e => rfl
    | ok s => simp [ih, Node.body]
  | control node rest hcontrol ihbody ihrest =>
    rw [declareAll, declareNode_control hcontrol, Score.declarations_cons, List.append_assoc,
      declareList_append]
    cases s.declareList (node.values.filterMap Value.declaration?) with
    | error e => rfl
    | ok s =>
      simp only [ihbody, declareList_append]
      cases s.declareList (Score.declarations node.body) with
      | error e => rfl
      | ok s => exact ihrest s

/-! ## What they come to -/

/-- A cell for each declared name, with the first value declared for it. -/
def ofDeclarations (ds : List (String × Float32)) : Cells :=
  ⟨(ds.map Prod.fst).eraseDups.map fun name =>
    { name, initial := (ds.lookup name).getD 0, value := (ds.lookup name).getD 0 }⟩

/-- The first value declared for each name is finite, and there are not too many names. -/
structure Declarable (ds : List (String × Float32)) : Prop where
  finite : ∀ name initial, ds.lookup name = some initial → initial.isFinite = true
  few : (ds.map Prod.fst).eraseDups.length ≤ maxCells

theorem names_ofDeclarations (ds : List (String × Float32)) :
    (ofDeclarations ds).names = (ds.map Prod.fst).eraseDups := by
  simp [ofDeclarations, names, Function.comp_def]

theorem size_ofDeclarations (ds : List (String × Float32)) :
    (ofDeclarations ds).size = (ds.map Prod.fst).eraseDups.length := by
  simp [ofDeclarations, size]

theorem lookup_eq_none_iff {ds : List (String × Float32)} {name : String} :
    ds.lookup name = none ↔ name ∉ ds.map Prod.fst := by
  rw [List.lookup_eq_none_iff]
  constructor
  · intro h hmem
    obtain ⟨d, hd, rfl⟩ := List.mem_map.1 hmem
    simpa using h d hd
  · intro h d hd
    have hne : name ≠ d.1 := fun heq => h (List.mem_map.2 ⟨d, hd, heq.symm⟩)
    simpa using hne

variable {ds : List (String × Float32)} {d : String × Float32}

theorem lookup_concat (name : String) :
    (ds ++ [d]).lookup name = (ds.lookup name).or (if name = d.1 then some d.2 else none) := by
  rw [List.lookup_append, List.lookup_cons]
  by_cases h : name = d.1
  · simp [h]
  · rw [beq_eq_false_iff_ne.2 h, if_neg h]
    rfl

theorem ofDeclarations_of_mem (h : d.1 ∈ ds.map Prod.fst) :
    ofDeclarations (ds ++ [d]) = ofDeclarations ds ∧ (Declarable (ds ++ [d]) ↔ Declarable ds) := by
  have hnames : ((ds ++ [d]).map Prod.fst).eraseDups = (ds.map Prod.fst).eraseDups := by
    rw [List.map_append, List.eraseDups_append]
    simp [List.removeAll, h]
  have hlookup : ∀ name, (ds ++ [d]).lookup name = ds.lookup name := by
    intro name
    rw [lookup_concat]
    cases hname : ds.lookup name with
    | some x => rfl
    | none =>
      have hne : name ≠ d.1 := by
        rintro rfl
        exact lookup_eq_none_iff.1 hname h
      simp [hne]
  refine ⟨by simp only [ofDeclarations, hnames, hlookup], fun ok => ⟨?_, ?_⟩, fun ok => ⟨?_, ?_⟩⟩
  · simpa only [hlookup] using ok.finite
  · simpa only [hnames] using ok.few
  · simpa only [hlookup] using ok.finite
  · simpa only [hnames] using ok.few

theorem ofDeclarations_of_not_mem (h : d.1 ∉ ds.map Prod.fst) :
    ofDeclarations (ds ++ [d]) =
        ⟨(ofDeclarations ds).cells ++ [{ name := d.1, initial := d.2, value := d.2 }]⟩ ∧
      (Declarable (ds ++ [d]) ↔
        Declarable ds ∧ d.2.isFinite = true ∧ (ofDeclarations ds).size < maxCells) := by
  have hnames : ((ds ++ [d]).map Prod.fst).eraseDups = (ds.map Prod.fst).eraseDups ++ [d.1] := by
    rw [List.map_append, List.eraseDups_append]
    simp [List.removeAll, h, List.eraseDups_cons]
  have hnew : (ds ++ [d]).lookup d.1 = some d.2 := by
    simp [lookup_concat, lookup_eq_none_iff.2 h]
  have hold : ∀ name ≠ d.1, (ds ++ [d]).lookup name = ds.lookup name := by
    intro name hne
    simp [lookup_concat, hne]
  constructor
  · unfold ofDeclarations
    rw [hnames, List.map_append, List.map_singleton, hnew]
    congr 2
    refine List.map_congr_left fun name hmem => ?_
    have hne : name ≠ d.1 := fun heq => h (heq ▸ List.mem_eraseDups.1 hmem)
    rw [hold name hne]
  · rw [size_ofDeclarations]
    constructor
    · rintro ⟨finite, few⟩
      rw [hnames, List.length_append, List.length_singleton] at few
      refine ⟨⟨fun name initial hname => finite name initial ?_, by omega⟩, finite _ _ hnew, by omega⟩
      rw [lookup_concat, hname]
      rfl
    · rintro ⟨⟨finite, few⟩, hfinite, hroom⟩
      refine ⟨fun name initial hname => ?_, ?_⟩
      · by_cases hself : name = d.1
        · rw [hself, hnew] at hname
          cases hname
          exact hfinite
        · rw [hold name hself] at hname
          exact finite name initial hname
      · rw [hnames, List.length_append, List.length_singleton]
        omega

theorem declare_eq_ok_iff {s t : Cells} {name : String} {initial : Float32} :
    (s.declare name initial).map (·.2) = .ok t ↔
      name ∈ s.names ∧ t = s ∨
        name ∉ s.names ∧ initial.isFinite = true ∧ s.size < maxCells ∧
          t = ⟨s.cells ++ [{ name, initial, value := initial }]⟩ := by
  unfold declare
  cases hfind : s.find? name with
  | some i =>
    have hmem : name ∈ s.names := by
      by_contra h
      rw [find?_eq_none_iff.2 h] at hfind
      cases hfind
    simp only [Except.map, Except.ok.injEq, hmem, true_and, not_true_eq_false, false_and, or_false]
    exact eq_comm
  | none =>
    have hmem : name ∉ s.names := find?_eq_none_iff.1 hfind
    cases hfinite : initial.isFinite with
    | false => simp [hmem, Except.map]
    | true =>
      by_cases hroom : maxCells ≤ s.size
      · simp [hmem, hroom, Except.map, Nat.not_lt.2 hroom]
      · simp only [hmem, hroom, Bool.not_true, Bool.false_eq_true, if_false, Except.map, Except.ok.injEq,
          false_and, not_false_eq_true, Nat.not_le.1 hroom, true_and, false_or]
        exact eq_comm

/-- Declarations succeed when they keep to what is asked, and come to one cell for each name. -/
theorem declareList_eq_ok_iff {cells : Cells} :
    empty.declareList ds = .ok cells ↔ Declarable ds ∧ cells = ofDeclarations ds := by
  induction ds using List.reverseRecOn generalizing cells with
  | nil =>
    have start : Declarable [] := ⟨fun _ _ h => by simp at h, by simp⟩
    simp [start, ofDeclarations, empty, eq_comm]
  | append_singleton ds d ih =>
    rw [declareList_append]
    cases hds : empty.declareList ds with
    | error e =>
      have refused : ¬ Declarable ds := fun ok => by
        have := ih.2 ⟨ok, rfl⟩
        rw [hds] at this
        cases this
      by_cases hmem : d.1 ∈ ds.map Prod.fst
      · simp [(ofDeclarations_of_mem hmem).2, refused]
      · simp [(ofDeclarations_of_not_mem hmem).2, refused]
    | ok s =>
      obtain ⟨ok, rfl⟩ := ih.1 hds
      simp only [declareList_singleton, declare_eq_ok_iff, names_ofDeclarations, List.mem_eraseDups]
      by_cases hmem : d.1 ∈ ds.map Prod.fst
      · obtain ⟨hcells, hok⟩ := ofDeclarations_of_mem hmem
        simp [hmem, hcells, hok, ok]
      · obtain ⟨hcells, hok⟩ := ofDeclarations_of_not_mem hmem
        simp [hmem, hcells, hok, ok, and_assoc]

end Cells

end ControlVoltage

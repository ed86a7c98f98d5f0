import ControlVoltage.Proofs.Program.Cells
import ControlVoltage.Proofs.Score.Reading

/-!
# Values and their formulas

A checked value and the value as it is written down come to the same number, and leave the same
cells behind, on any cells with the names that the value was checked against.

* `OperatorName.name` : what an operator is written as.
* `formula_op` : which formulas an operator can be checked into.
* `Formula.names_eval` : names never change.
* `read_eq_eval` : reading a value is evaluating its formula.
-/

namespace ControlVoltage

open Score (Value)

/-! ## Names of cells -/

/-- Evaluation changes values only. -/
@[simp] theorem Formula.names_eval (f : Formula) (s : Cells) : (f.eval s).2.names = s.names := by
  fun_induction Formula.eval f s <;> simp_all

/-- And so does reading, of values that have not been checked either. -/
@[simp] theorem Score.Value.names_read (v : Value) (s : Cells) : (v.read s).2.names = s.names := by
  fun_induction Score.Value.read v s with
  | case11 s name target initial a _ x cells hread ih =>
    simp only [Cells.setNamed?]
    cases cells.find? target <;> simp_all
  | _ => simp_all

/-! ## Names of operators -/

def Operator.name : Operator → String
  | .add => "add"
  | .sub => "sub"
  | .mul => "mul"
  | .div => "div"
  | .mod => "mod"

namespace OperatorName

def name : OperatorName → String
  | .negate => "neg"
  | .binary op => op.name
  | .mutate => "mutate"

theorem ofName?_eq_some_iff {name : String} {op : OperatorName} :
    ofName? name = some op ↔ name = op.name := by
  constructor
  · intro h
    unfold ofName? at h
    split at h <;> cases h <;> rfl
  · rintro rfl
    cases op with
    | negate => rfl
    | binary op => cases op <;> rfl
    | mutate => rfl

end OperatorName

/-! ## Checked operands -/

private theorem pair_of_length {args : List Value} (h : args.length = 2) :
    ∃ a b, args = [a, b] := by
  match args, h with
  | [a, b], _ => exact ⟨a, b, rfl⟩

theorem operands_single {s : Cells} {targeted : Bool} {a : Value} {fs : List Formula}
    (h : Score.operands s targeted [a] = .ok fs) :
    ∃ f, a.formula s = .ok f ∧ fs = [f] := by
  simp only [Score.operands] at h
  split at h
  · cases h
  · rename_i f hf
    split at h
    · cases h
    · cases h
      exact ⟨f, hf, rfl⟩

theorem operands_pair {s : Cells} {targeted : Bool} {a b : Value} {fs : List Formula}
    (h : Score.operands s targeted [a, b] = .ok fs) :
    ∃ f g, a.formula s = .ok f ∧ b.formula s = .ok g ∧ (targeted = true → f.isCell = true) ∧
      fs = [f, g] := by
  unfold Score.operands at h
  split at h
  · cases h
  · rename_i f hf
    split at h
    · cases h
    · rename_i hcell
      split at h
      · cases h
      · rename_i gs hgs
        obtain ⟨g, hg, rfl⟩ := operands_single hgs
        cases h
        exact ⟨f, g, hf, hg, by simpa using hcell, rfl⟩

theorem var_of_formula_cell {s : Cells} {v : Value} {i : Nat} (h : v.formula s = .ok (.cell i)) :
    ∃ name initial, v = .var name initial ∧ s.find? name = some i := by
  cases v with
  | lit x => grind [Score.Value.formula]
  | var name initial => grind [Score.Value.formula]
  | op name args =>
    simp only [Score.Value.formula] at h
    split at h
    · cases h
    · split at h
      · cases h
      · split at h
        · cases h
        · simp only [OperatorName.apply] at h
          split at h <;> cases h

theorem formula_op {s : Cells} {name : String} {args : List Value} {f : Formula}
    (h : (Value.op name args).formula s = .ok f) :
    (∃ a fa, OperatorName.ofName? name = some .negate ∧ args = [a] ∧ a.formula s = .ok fa ∧
        f = .neg fa) ∨
      (∃ op a b fa fb, OperatorName.ofName? name = some (.binary op) ∧ args = [a, b] ∧
        a.formula s = .ok fa ∧ b.formula s = .ok fb ∧ f = .binary op fa fb) ∨
      (∃ target initial i b fb, OperatorName.ofName? name = some .mutate ∧
        args = [.var target initial, b] ∧ s.find? target = some i ∧ b.formula s = .ok fb ∧
        f = .mutate i fb) := by
  simp only [Score.Value.formula] at h
  split at h
  · cases h
  · rename_i op hop
    split at h
    · cases h
    · rename_i harity
      rw [Decidable.not_not] at harity
      split at h
      · cases h
      · rename_i fs hfs
        cases op with
        | negate =>
          obtain ⟨a, rfl⟩ := List.length_eq_one_iff.1 harity
          obtain ⟨fa, ha, rfl⟩ := operands_single hfs
          cases h
          exact Or.inl ⟨a, fa, hop, rfl, ha, rfl⟩
        | binary op =>
          obtain ⟨a, b, rfl⟩ := pair_of_length harity
          obtain ⟨fa, fb, ha, hb, _, rfl⟩ := operands_pair hfs
          cases h
          exact Or.inr (Or.inl ⟨op, a, b, fa, fb, hop, rfl, ha, hb, rfl⟩)
        | mutate =>
          obtain ⟨a, b, rfl⟩ := pair_of_length harity
          obtain ⟨fa, fb, ha, hb, hcell, rfl⟩ := operands_pair hfs
          obtain ⟨i, rfl⟩ : ∃ i, fa = .cell i := by
            have := hcell (by decide)
            cases fa <;> simp_all [Formula.isCell]
          obtain ⟨target, initial, rfl, hi⟩ := var_of_formula_cell ha
          cases h
          exact Or.inr (Or.inr ⟨target, initial, i, b, fb, hop, rfl, hi, hb, rfl⟩)

/-! ## Reading and evaluating -/

/-- Reading a value gives the number and the cells that evaluating its formula gives. -/
theorem read_eq_eval {declared : Cells} :
    ∀ (v : Value) (f : Formula) (s : Cells), v.formula declared = .ok f →
      s.names = declared.names → v.read s = f.eval s
  | .lit x, f, s => by
    intro h _
    simp only [Score.Value.formula] at h
    split at h
    · cases h
      rfl
    · cases h
  | .var name initial, f, s => by
    intro h names
    simp only [Score.Value.formula] at h
    split at h
    · rename_i i hi
      cases h
      simp [Score.Value.read, Formula.eval, Cells.valueOf?, Cells.find?_eq_of_names names, hi]
    · cases h
  | .op name args, f, s => by
    intro h names
    rcases formula_op h with ⟨a, fa, hop, rfl, ha, rfl⟩ | ⟨op, a, b, fa, fb, hop, rfl, ha, hb, rfl⟩ |
      ⟨target, initial, i, b, fb, hop, rfl, hi, hb, rfl⟩
    · simp only [Score.Value.read, hop, Formula.eval, read_eq_eval a fa s ha names]
    · have iha := fun t (ht : t.names = declared.names) => read_eq_eval a fa t ha ht
      have ihb := fun t (ht : t.names = declared.names) => read_eq_eval b fb t hb ht
      have namesA : (fa.eval s).2.names = declared.names := by simp [names]
      have namesB : (fb.eval s).2.names = declared.names := by simp [names]
      cases op with
      | add => simp only [Score.Value.read, hop, Formula.eval, iha s names, ihb _ namesA]
      | sub => simp only [Score.Value.read, hop, Formula.eval, iha s names, ihb _ namesA]
      | mul => simp only [Score.Value.read, hop, Formula.eval, iha s names, ihb _ namesA]
      | div => simp only [Score.Value.read, hop, Formula.eval, ihb s names, iha _ namesB]
      | mod =>
        simp only [Score.Value.read, hop, Formula.eval, Formula.floorMod, ihb s names, iha _ namesB]
    · have namesB : (fb.eval s).2.names = declared.names := by simp [names]
      simp only [Score.Value.read, hop, Formula.eval, read_eq_eval b fb s hb names, Cells.setNamed?,
        Cells.find?_eq_of_names namesB, hi, Option.map_some, Option.getD_some]

end ControlVoltage

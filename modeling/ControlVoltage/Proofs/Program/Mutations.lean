import ControlVoltage.Proofs.Program.Writes

/-!
# Mutates

An evaluation performs each mutate of its formula once, with one exception: the dividend of a division
or of a remainder is not evaluated when the divisor comes to zero, and the mutates in there are left
out.

* `Formula.mutates` : the mutates of a formula, known by their places.
* `Formula.evalNoting` : evaluation with a note of every write; `eval_eq`.
* `Formula.leftOut` : the mutates in the dividends that are not evaluated.
* `Formula.targets_lt` : a checked formula mutates cells that are there.
* `Formula.mutates_once` : every mutate is performed once or is left out.
* `Formula.mutate_left_out` : a counter over zero.
-/

namespace ControlVoltage

namespace Formula

/-! ## Nodes -/

/-- Which operand of its operator a formula is; a single operand counts as the first. -/
inductive Side where
  | first
  | second
deriving DecidableEq

/-- A mutate of a formula: its place, as the operands that lead there from the top, and the cell that
it stores to. -/
structure Mutate where
  place : List Side
  cell : Nat
deriving DecidableEq

def mutates : Formula → (place : List Side) → List Mutate
  | .lit _, _ => []
  | .cell _, _ => []
  | .neg a, place => a.mutates (place ++ [.first])
  | .binary _ a b, place => a.mutates (place ++ [.first]) ++ b.mutates (place ++ [.second])
  | .mutate i a, place => ⟨place, i⟩ :: a.mutates (place ++ [.first])

theorem cell_mutates (f : Formula) (place : List Side) :
    (f.mutates place).map Mutate.cell = f.targets := by
  induction f generalizing place with
  | lit x => rfl
  | cell i => rfl
  | neg a ih => exact ih _
  | binary op a b iha ihb => rw [mutates, List.map_append, iha, ihb, targets]
  | mutate i a ih => rw [mutates, List.map_cons, ih, targets]

theorem place_isPrefix {f : Formula} {place : List Side} {m : Mutate} (h : m ∈ f.mutates place) :
    place <+: m.place := by
  induction f generalizing place with
  | lit x => cases h
  | cell i => cases h
  | neg a ih => exact (List.prefix_append place _).trans (ih h)
  | binary op a b iha ihb =>
    rcases List.mem_append.1 h with h | h
    · exact (List.prefix_append place _).trans (iha h)
    · exact (List.prefix_append place _).trans (ihb h)
  | mutate i a ih =>
    rcases List.mem_cons.1 h with rfl | h
    · exact List.prefix_rfl
    · exact (List.prefix_append place _).trans (ih h)

theorem nodup_places (f : Formula) (place : List Side) :
    ((f.mutates place).map Mutate.place).Nodup := by
  induction f generalizing place with
  | lit x => exact .nil
  | cell i => exact .nil
  | neg a ih => exact ih _
  | binary op a b iha ihb =>
    rw [mutates, List.map_append]
    refine (iha _).append (ihb _) fun p hleft hright => ?_
    obtain ⟨m, hm, rfl⟩ := List.mem_map.1 hleft
    obtain ⟨n, hn, same⟩ := List.mem_map.1 hright
    -- The place would lie in both operands.
    have hfirst := place_isPrefix hm
    have hsecond := place_isPrefix hn
    rw [same] at hsecond
    have := List.prefix_of_prefix_length_le hfirst hsecond (by simp)
    simp at this
  | mutate i a ih =>
    rw [mutates, List.map_cons, List.nodup_cons]
    refine ⟨fun hmem => ?_, ih _⟩
    obtain ⟨m, hm, same⟩ := List.mem_map.1 hmem
    have hlength := (place_isPrefix hm).length_le
    rw [same, List.length_append] at hlength
    exact Nat.not_succ_le_self _ hlength

/-! ## Evaluation with notes -/

/-- A write to a cell, by a mutate of a formula. -/
structure Note where
  mutate : Mutate
  value : Float32

def Note.write (note : Note) : Write := ⟨note.mutate.cell, note.value, .formula⟩

/-- Evaluation of a formula that stands at `place`, with a note of every write that it makes. -/
def evalNoting : Formula → (place : List Side) → Cells → Float32 × Cells × List Note
  | .lit x, _, s => (x, s, [])
  | .cell i, _, s => (s.get i, s, [])
  | .neg a, place, s =>
    let (x, s, notes) := a.evalNoting (place ++ [.first]) s
    (-x, s, notes)
  | .binary .add a b, place, s =>
    let (x, s, notes) := a.evalNoting (place ++ [.first]) s
    let (y, s, notes') := b.evalNoting (place ++ [.second]) s
    (x + y, s, notes ++ notes')
  | .binary .sub a b, place, s =>
    let (x, s, notes) := a.evalNoting (place ++ [.first]) s
    let (y, s, notes') := b.evalNoting (place ++ [.second]) s
    (x - y, s, notes ++ notes')
  | .binary .mul a b, place, s =>
    let (x, s, notes) := a.evalNoting (place ++ [.first]) s
    let (y, s, notes') := b.evalNoting (place ++ [.second]) s
    (x * y, s, notes ++ notes')
  | .binary .div a b, place, s =>
    let (d, s, notes) := b.evalNoting (place ++ [.second]) s
    if d == 0 then (0, s, notes)
    else
      let (n, s, notes') := a.evalNoting (place ++ [.first]) s
      (n / d, s, notes ++ notes')
  | .binary .mod a b, place, s =>
    let (d, s, notes) := b.evalNoting (place ++ [.second]) s
    if d == 0 then (0, s, notes)
    else
      let (n, s, notes') := a.evalNoting (place ++ [.first]) s
      (floorMod n d, s, notes ++ notes')
  | .mutate i a, place, s =>
    let (x, s, notes) := a.evalNoting (place ++ [.first]) s
    (x, s.set i x, notes ++ [⟨⟨place, i⟩, x⟩])

theorem eval_eq (f : Formula) (place : List Side) (s : Cells) :
    f.eval s = ((f.evalNoting place s).1, (f.evalNoting place s).2.1) := by
  induction f generalizing place s with
  | lit x => rfl
  | cell i => rfl
  | neg a ih => simp only [eval, evalNoting, ih (place ++ [.first])]
  | mutate i a ih => simp only [eval, evalNoting, ih (place ++ [.first])]
  | binary op a b iha ihb =>
    have first := iha (place ++ [.first])
    have second := ihb (place ++ [.second])
    cases op with
    | add => simp only [eval, evalNoting, first, second]
    | sub => simp only [eval, evalNoting, first, second]
    | mul => simp only [eval, evalNoting, first, second]
    | div =>
      simp only [eval, evalNoting, first, second]
      split <;> rfl
    | mod =>
      simp only [eval, evalNoting, first, second]
      split <;> rfl

/-- The writes that an evaluation makes, in order. -/
def notes (f : Formula) (place : List Side) (s : Cells) : List Note := (f.evalNoting place s).2.2

theorem notes_mutate (i : Nat) (a : Formula) (place : List Side) (s : Cells) :
    (mutate i a).notes place s =
      a.notes (place ++ [.first]) s ++ [⟨⟨place, i⟩, (a.eval s).1⟩] := by
  rw [eval_eq a (place ++ [.first])]
  rfl

theorem notes_binary (op : Operator) (a b : Formula) (place : List Side) (s : Cells) :
    (binary op a b).notes place s =
      if op.divides then
        b.notes (place ++ [.second]) s ++
          if (b.eval s).1 == 0 then [] else a.notes (place ++ [.first]) (b.eval s).2
      else a.notes (place ++ [.first]) s ++ b.notes (place ++ [.second]) (a.eval s).2 := by
  rw [eval_eq a (place ++ [.first]), eval_eq b (place ++ [.second])]
  cases op with
  | add => rfl
  | sub => rfl
  | mul => rfl
  | div =>
    simp only [notes, evalNoting, Operator.divides, if_true]
    split
    · rw [List.append_nil]
    · rfl
  | mod =>
    simp only [notes, evalNoting, Operator.divides, if_true]
    split
    · rw [List.append_nil]
    · rfl

theorem writes_eq (f : Formula) (place : List Side) (s : Cells) :
    f.writes s = (f.notes place s).map Note.write := by
  induction f generalizing place s with
  | lit x => rfl
  | cell i => rfl
  | neg a ih => exact ih _ s
  | mutate i a ih => rw [writes, notes_mutate, List.map_append, ← ih]; rfl
  | binary op a b iha ihb =>
    rw [writes, notes_binary]
    split
    · rw [List.map_append, ← ihb]
      split
      · rfl
      · rw [← iha]
    · rw [List.map_append, ← iha, ← ihb]

/-! ## Once, or left out -/

/-- The mutates in the dividends that are not evaluated, since their divisors come to zero. -/
def leftOut : Formula → (place : List Side) → Cells → List Mutate
  | .lit _, _, _ => []
  | .cell _, _, _ => []
  | .neg a, place, s => a.leftOut (place ++ [.first]) s
  | .binary op a b, place, s =>
    if op.divides then
      b.leftOut (place ++ [.second]) s ++
        if (b.eval s).1 == 0 then a.mutates (place ++ [.first])
        else a.leftOut (place ++ [.first]) (b.eval s).2
    else a.leftOut (place ++ [.first]) s ++ b.leftOut (place ++ [.second]) (a.eval s).2
  | .mutate _ a, place, s => a.leftOut (place ++ [.first]) s

/-- Every mutate writes once, or is left out. -/
theorem notes_append_leftOut (f : Formula) (place : List Side) (s : Cells) :
    ((f.notes place s).map Note.mutate ++ f.leftOut place s).Perm (f.mutates place) := by
  induction f generalizing place s with
  | lit x => exact .nil
  | cell i => exact .nil
  | neg a ih => exact ih _ s
  | mutate i a ih =>
    refine List.Perm.trans ?_ ((ih (place ++ [.first]) s).cons ⟨place, i⟩)
    rw [notes_mutate, leftOut, List.map_append, List.append_assoc]
    exact List.perm_middle
  | binary op a b iha ihb =>
    -- Whatever the order of the operands, and with all of the dividend on one side if it is left out.
    refine List.perm_iff_count.2 fun m => ?_
    have first := fun t => (iha (place ++ [.first]) t).count_eq m
    have second := fun t => (ihb (place ++ [.second]) t).count_eq m
    simp only [List.count_append] at first second
    rw [notes_binary, mutates, leftOut, List.count_append, List.count_append, ← second s]
    cases op.divides with
    | false =>
      have ha := first s
      have hb := second (a.eval s).2
      simp only [Bool.false_eq_true, if_false, List.map_append, List.count_append]
      rw [second s]
      omega
    | true =>
      simp only [if_true, List.map_append, List.count_append]
      have ha := first (b.eval s).2
      cases (b.eval s).1 == 0 with
      | true =>
        simp only [if_true, List.map_nil, List.count_nil]
        omega
      | false =>
        simp only [Bool.false_eq_true, if_false]
        omega

end Formula

/-! ## Cells -/

theorem targets_lt {declared : Cells} : ∀ (v : Score.Value) (f : Formula),
    v.formula declared = .ok f → ∀ i ∈ f.targets, i < declared.size
  | .lit x, f => by
    intro h i hi
    simp only [Score.Value.formula] at h
    split at h
    · cases h
      cases hi
    · cases h
  | .var name initial, f => by
    intro h i hi
    simp only [Score.Value.formula] at h
    split at h
    · cases h
      cases hi
    · cases h
  | .op name args, f => by
    intro h i hi
    rcases formula_op h with ⟨a, fa, -, rfl, ha, rfl⟩ | ⟨op, a, b, fa, fb, -, rfl, ha, hb, rfl⟩ |
      ⟨target, initial, j, b, fb, -, rfl, hj, hb, rfl⟩
    · exact targets_lt a fa ha i hi
    · rcases List.mem_append.1 hi with hi | hi
      · exact targets_lt a fa ha i hi
      · exact targets_lt b fb hb i hi
    · rcases List.mem_cons.1 hi with rfl | hi
      · exact Cells.lt_of_find? hj
      · exact targets_lt b fb hb i hi

namespace Program

theorem formula_of_opens? {s : Cells} {around : Nesting} {node : Score.Node} {kind : BlockKind}
    (h : node.opens? s around = some kind) {f : Formula} (hf : f ∈ kind.formulas) :
    ∃ v : Score.Value, v.formula s = .ok f := by
  cases kind with
  | when condition =>
    cases List.mem_singleton.1 hf
    cases node with
    | when value body =>
      simp only [Score.Node.opens?] at h
      split at h
      · rename_i c hc
        cases h
        exact ⟨value, hc⟩
      · cases h
    | _ => simp [Score.Node.opens?] at h
  | _ => cases hf

theorem Laid.formulas {s : Cells} {depth next : Nat} {around : Nesting} {nodes : List Score.Node}
    {ops : List Op} {blocks : List Block} (laid : Laid s depth around next nodes ops blocks) :
    (∀ f ∈ ops.flatMap Op.formulas, ∃ v : Score.Value, v.formula s = .ok f) ∧
      ∀ block ∈ blocks, ∀ f ∈ block.kind.formulas ++ block.ops.toList.flatMap Op.formulas,
        ∃ v : Score.Value, v.formula s = .ok f := by
  induction laid with
  | nil => simp
  | ramp hvolts htime hlong hcurve rest ih =>
    refine ⟨fun f hf => ?_, ih.2⟩
    rw [List.flatMap_cons] at hf
    rcases List.mem_append.1 hf with hf | hf
    · rcases List.mem_pair.1 hf with rfl | rfl
      · exact ⟨_, hvolts⟩
      · exact ⟨_, htime⟩
    · exact ih.1 f hf
  | control hcontrol hopens hdepth hnext inside rest ihinside ihrest =>
    refine ⟨ihrest.1, List.forall_mem_append.2 ⟨List.forall_mem_cons.2 ⟨?_, ihinside.2⟩, ihrest.2⟩⟩
    intro f hf
    rcases List.mem_append.1 hf with hf | hf
    · exact formula_of_opens? hopens hf
    · exact ihinside.1 f hf

theorem value_of_mem_formulas {score : List Score.Node} {program : Program}
    (h : compile score = .ok program) {f : Formula} (hf : f ∈ program.formulas) :
    ∃ v : Score.Value, v.formula program.cells = .ok f := by
  obtain ⟨-, ops, blocks, hblocks, laid⟩ := compile_eq_ok_iff.1 h
  obtain ⟨block, hblock, hf⟩ := List.mem_flatMap.1 hf
  rw [hblocks] at hblock
  rcases List.mem_cons.1 hblock with rfl | hblock
  · exact laid.formulas.1 f hf
  · exact laid.formulas.2 block hblock f hf

end Program

namespace Cells

def declarations (s : Cells) : List (String × Float32) := s.cells.map fun c => (c.name, c.initial)

theorem declarations_set (s : Cells) (i : Nat) (x : Float32) :
    (s.set i x).declarations = s.declarations := by
  apply List.ext_getElem?
  intro j
  simp only [declarations, set, List.getElem?_map, List.getElem?_modify]
  by_cases hj : i = j
  · cases s.cells[j]? <;> simp [hj]
  · simp [hj]

theorem declarations_writeAll (s : Cells) (ws : List Write) :
    (s.writeAll ws).declarations = s.declarations := by
  induction ws generalizing s with
  | nil => rfl
  | cons w ws ih => exact (ih _).trans (declarations_set s _ _)

theorem getElem?_writeAll {i : Nat} {ws : List Write} (h : ∀ w ∈ ws, w.cell ≠ i) (s : Cells) :
    (s.writeAll ws).cells[i]? = s.cells[i]? := by
  induction ws generalizing s with
  | nil => rfl
  | cons w ws ih =>
    obtain ⟨hw, hrest⟩ := List.forall_mem_cons.1 h
    refine (ih hrest _).trans ?_
    simp [set, hw]

end Cells

namespace Formula

/-- Which mutates one evaluation performs. For every formula of a compiled program, on cells with the
names of the program and any values in them,
* no two mutates have the same place, and each one writes exactly once or is left out; those left out
  are the ones in the dividends of divisors that come to zero, so that every mutate writes exactly once
  if and only if there is none of these;
* the notes are of all that is written: they are made beside an evaluation that is otherwise the same,
  each is of a cell that is there, and the cells after it come from them;
* a cell that no mutate is for stays as it is, and so do all names and declared values. -/
theorem mutates_once {score : List Score.Node} {program : Program}
    (hcompile : Program.compile score = .ok program) {f : Formula} (hf : f ∈ program.formulas)
    {s : Cells} (names : s.names = program.cells.names) :
    ((f.mutates []).map Mutate.place).Nodup ∧
    ((f.notes [] s).map Note.mutate ++ f.leftOut [] s).Perm (f.mutates []) ∧
    (((f.notes [] s).map Note.mutate).Perm (f.mutates []) ↔ f.leftOut [] s = []) ∧
    f.evalNoting [] s = ((f.eval s).1, (f.eval s).2, f.notes [] s) ∧
    (∀ note ∈ f.notes [] s, note.mutate.cell < s.size) ∧
    (f.eval s).2 = s.writeAll ((f.notes [] s).map Note.write) ∧
    (∀ i, (∀ m ∈ f.mutates [], m.cell ≠ i) → (f.eval s).2.cells[i]? = s.cells[i]?) ∧
    (f.eval s).2.declarations = s.declarations := by
  have hperm := notes_append_leftOut f [] s
  have hcells : (f.eval s).2 = s.writeAll ((f.notes [] s).map Note.write) := by
    rw [eval_cells, writes_eq]
  have hmem : ∀ note ∈ f.notes [] s, note.mutate ∈ f.mutates [] := fun note hnote =>
    hperm.subset (List.mem_append_left _ (List.mem_map_of_mem hnote))
  refine ⟨nodup_places f [], hperm, ⟨fun all => ?_, fun none => ?_⟩, ?_, fun note hnote => ?_, hcells,
    fun i hi => ?_, ?_⟩
  · have hlength := hperm.length_eq
    rw [List.length_append, all.length_eq] at hlength
    exact List.length_eq_zero_iff.1 (by omega)
  · rwa [none, List.append_nil] at hperm
  · rw [eval_eq f [] s]
    rfl
  · obtain ⟨v, hv⟩ := Program.value_of_mem_formulas hcompile hf
    have hsize : s.size = program.cells.size := by
      have hlength := congrArg List.length names
      simpa [Cells.names, Cells.size] using hlength
    rw [hsize]
    refine targets_lt v f hv _ ?_
    rw [← cell_mutates f []]
    exact List.mem_map_of_mem (hmem note hnote)
  · rw [hcells]
    refine Cells.getElem?_writeAll (fun w hw => ?_) s
    obtain ⟨note, hnote, rfl⟩ := List.mem_map.1 hw
    exact hi _ (hmem note hnote)
  · rw [hcells]
    exact Cells.declarations_writeAll s _

/-- A count of passes, divided with remainder by another value. -/
def countOver (divisor : Score.Value) : List Score.Node :=
  [.ramp (.op "mod" [.op "mutate" [.var "x" (some 0), .op "add" [.var "x" none, .lit 1]], divisor])
    (.lit 0) "linear"]

/-- What the volts of `countOver` are checked into. -/
def remainder (divisor : Formula) : Formula :=
  .binary .mod (.mutate 0 (.binary .add (.cell 0) (.lit 1))) divisor

def countProgram (divisor : Formula) (cells : Cells) : Program :=
  ⟨#[⟨.plain, #[.ramp ⟨remainder divisor, .lit 0, .linear⟩]⟩], cells⟩

theorem mem_formulas_countProgram (divisor : Formula) (cells : Cells) :
    remainder divisor ∈ (countProgram divisor cells).formulas := by
  have hop : Op.ramp ⟨remainder divisor, .lit 0, .linear⟩ ∈
      #[Op.ramp ⟨remainder divisor, .lit 0, .linear⟩] := List.mem_toArray.2 List.mem_cons_self
  exact Program.mem_formulas_of_op (List.mem_toArray.2 List.mem_cons_self) hop List.mem_cons_self

/-- The divisor is a count of its own, and not zero: both counts go on. -/
theorem mutates_once_counting :
    let divisor : Formula := .mutate 1 (.binary .add (.cell 1) (.lit 2))
    let cells : Cells := ⟨[⟨"x", 0, 0⟩, ⟨"y", 0, 0⟩]⟩
    Program.compile
        (countOver (.op "mutate" [.var "y" (some 0), .op "add" [.var "y" none, .lit 2]])) =
      .ok (countProgram divisor cells) ∧
    (((remainder divisor).notes [] cells).map Note.mutate).Perm ((remainder divisor).mutates []) ∧
    ((remainder divisor).eval cells).2 = ⟨[⟨"x", 0, 1⟩, ⟨"y", 0, 2⟩]⟩ := by
  intro divisor cells
  have hcompile : Program.compile
      (countOver (.op "mutate" [.var "y" (some 0), .op "add" [.var "y" none, .lit 2]])) =
      .ok (countProgram divisor cells) := by rfl
  obtain ⟨-, -, all, -⟩ := mutates_once (s := cells) hcompile (mem_formulas_countProgram divisor cells)
    rfl
  exact ⟨hcompile, all.2 (by decide +kernel), by decide +kernel⟩

/-- The divisor is zero: the count stops. -/
theorem mutate_left_out :
    let cells : Cells := ⟨[⟨"x", 0, 0⟩]⟩
    Program.compile (countOver (.lit 0)) = .ok (countProgram (.lit 0) cells) ∧
      remainder (.lit 0) ∈ (countProgram (.lit 0) cells).formulas ∧
      (remainder (.lit 0)).mutates [] = [⟨[.first], 0⟩] ∧
      (remainder (.lit 0)).notes [] cells = [] ∧ ((remainder (.lit 0)).eval cells).2 = cells := by
  intro cells
  have zero : ((0 : Float32) == 0) = true := by decide +kernel
  refine ⟨by rfl, mem_formulas_countProgram (.lit 0) cells, rfl, ?_, ?_⟩
  · simp [notes, remainder, evalNoting, zero]
  · simp [remainder, eval, zero]

end Formula

end ControlVoltage

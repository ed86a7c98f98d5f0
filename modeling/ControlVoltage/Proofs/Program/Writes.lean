import ControlVoltage.Proofs.Program.ReadBack

/-!
# Writes to cells

The cells only show the values that were written to them last. Beside them stands a list of all writes,
which says for every value where it comes from: from outside, or from a formula that stored it while it
was evaluated.

* `Cells.writeAll` : cells after writes; `get_writeAll` : a cell holds what was written to it last.
* `Formula.writes`, `Formula.targets` : what an evaluation stores, and where a formula can store.
* `Program.Mutates` : the cells that some formula of a program stores to.
-/

namespace ControlVoltage

inductive Write.Source where
  | host
  | formula
deriving DecidableEq

/-- A value written to a cell. -/
structure Write where
  cell : Nat
  value : Float32
  source : Write.Source

def Write.last? (i : Nat) (ws : List Write) : Option Write := ws.reverse.find? fun w => w.cell = i

theorem Write.last?_concat (i : Nat) (ws : List Write) (w : Write) :
    last? i (ws ++ [w]) = if w.cell = i then some w else last? i ws := by
  by_cases h : w.cell = i <;> simp [last?, h]

theorem Write.mem_of_last? {i : Nat} {ws : List Write} {w : Write} (h : last? i ws = some w) :
    w ∈ ws ∧ w.cell = i :=
  ⟨List.mem_reverse.1 (List.mem_of_find?_eq_some h), by simpa using List.find?_some h⟩

/-! ## Cells -/

namespace Cells

def writeAll (s : Cells) (ws : List Write) : Cells := ws.foldl (fun s w => s.set w.cell w.value) s

theorem writeAll_append (s : Cells) (ws ws' : List Write) :
    s.writeAll (ws ++ ws') = (s.writeAll ws).writeAll ws' :=
  List.foldl_append

theorem writeAll_concat (s : Cells) (ws : List Write) (w : Write) :
    s.writeAll (ws ++ [w]) = (s.writeAll ws).set w.cell w.value :=
  writeAll_append s ws [w]

@[simp] theorem size_writeAll (s : Cells) (ws : List Write) : (s.writeAll ws).size = s.size := by
  induction ws generalizing s with
  | nil => rfl
  | cons w ws ih => exact (ih _).trans (size_set s _ _)

theorem get_writeAll {s : Cells} {i : Nat} (hi : i < s.size) (ws : List Write) :
    (s.writeAll ws).get i = ((Write.last? i ws).map Write.value).getD (s.get i) := by
  induction ws using List.reverseRecOn with
  | nil => rfl
  | append_singleton ws w ih =>
    have hsize : i < (s.writeAll ws).size := by rwa [size_writeAll]
    rw [writeAll_concat, Write.last?_concat, get_set hsize]
    by_cases h : w.cell = i
    · rw [if_pos h, if_pos h]
      rfl
    · rw [if_neg h, if_neg h, ih]

end Cells

theorem Program.finite_of_compile {score : List Score.Node} {program : Program}
    (h : compile score = .ok program) (i : Nat) : (program.cells.get i).isFinite = true := by
  obtain ⟨hcells, -⟩ := compile_eq_ok_iff.1 h
  rw [Cells.declareAll_eq, Cells.declareList_eq_ok_iff] at hcells
  obtain ⟨declarable, hcells⟩ := hcells
  rw [Cells.get]
  cases hcell : program.cells.cells[i]? with
  | none => decide +kernel
  | some cell =>
    have hmem := List.mem_of_getElem? hcell
    rw [hcells] at hmem
    obtain ⟨hlookup, hvalue⟩ := Cells.cell_ofDeclarations hmem
    simp only [hvalue]
    exact declarable.finite _ _ hlookup

/-! ## Formulas -/

/-- Division and the remainder evaluate their second operand first, and the first one not at all if
that is zero. -/
def Operator.divides : Operator → Bool
  | .div => true
  | .mod => true
  | _ => false

namespace Formula

/-- What an evaluation stores, in order. -/
def writes : Formula → Cells → List Write
  | .lit _, _ => []
  | .cell _, _ => []
  | .neg a, s => a.writes s
  | .binary op a b, s =>
    if op.divides then
      b.writes s ++ if (b.eval s).1 == 0 then [] else a.writes (b.eval s).2
    else a.writes s ++ b.writes (a.eval s).2
  | .mutate i a, s => a.writes s ++ [⟨i, (a.eval s).1, .formula⟩]

theorem eval_cells (f : Formula) (s : Cells) : (f.eval s).2 = s.writeAll (f.writes s) := by
  induction f generalizing s with
  | lit x => rfl
  | cell i => rfl
  | neg a ih => exact ih s
  | mutate i a ih => rw [writes, Cells.writeAll_concat, ← ih, eval]
  | binary op a b iha ihb =>
    have divisor : ∀ y : Float32 → Float32 → Float32,
        (if (b.eval s).1 == 0 then (0, (b.eval s).2)
          else (y (a.eval (b.eval s).2).1 (b.eval s).1, (a.eval (b.eval s).2).2)).2 =
        s.writeAll (b.writes s ++ if (b.eval s).1 == 0 then [] else a.writes (b.eval s).2) := by
      intro y
      rw [Cells.writeAll_append, ← ihb]
      split
      · rfl
      · exact iha _
    have inOrder : (b.eval (a.eval s).2).2 = s.writeAll (a.writes s ++ b.writes (a.eval s).2) := by
      rw [Cells.writeAll_append, ← iha, ihb]
    cases op with
    | div => exact divisor fun n d => n / d
    | mod => exact divisor floorMod
    | add => exact inOrder
    | sub => exact inOrder
    | mul => exact inOrder

/-- The cells that a formula stores to, when all of it is evaluated. -/
def targets : Formula → List Nat
  | .lit _ => []
  | .cell _ => []
  | .neg a => a.targets
  | .binary _ a b => a.targets ++ b.targets
  | .mutate i a => i :: a.targets

theorem mem_writes {f : Formula} {s : Cells} {w : Write} (h : w ∈ f.writes s) :
    w.source = .formula ∧ w.cell ∈ f.targets := by
  induction f generalizing s with
  | lit x => cases h
  | cell i => cases h
  | neg a ih => exact ih h
  | binary op a b iha ihb =>
    have left : ∀ {t}, w ∈ a.writes t → w.source = .formula ∧ w.cell ∈ a.targets ++ b.targets :=
      fun h => ⟨(iha h).1, List.mem_append_left _ (iha h).2⟩
    have right : ∀ {t}, w ∈ b.writes t → w.source = .formula ∧ w.cell ∈ a.targets ++ b.targets :=
      fun h => ⟨(ihb h).1, List.mem_append_right _ (ihb h).2⟩
    rw [writes] at h
    split at h
    · rcases List.mem_append.1 h with h | h
      · exact right h
      · split at h
        · cases h
        · exact left h
    · rcases List.mem_append.1 h with h | h
      · exact left h
      · exact right h
  | mutate i a ih =>
    rcases List.mem_append.1 h with h | h
    · exact ⟨(ih h).1, List.mem_cons_of_mem _ (ih h).2⟩
    · rw [List.mem_singleton.1 h]
      exact ⟨rfl, List.mem_cons_self⟩

def writesAll : List Formula → Cells → List Write
  | [], _ => []
  | f :: fs, s => f.writes s ++ writesAll fs (f.eval s).2

theorem mem_writesAll {fs : List Formula} {s : Cells} {w : Write} (h : w ∈ writesAll fs s) :
    w.source = .formula ∧ ∃ f ∈ fs, w.cell ∈ f.targets := by
  induction fs generalizing s with
  | nil => cases h
  | cons f fs ih =>
    rcases List.mem_append.1 h with h | h
    · exact ⟨(mem_writes h).1, f, List.mem_cons_self, (mem_writes h).2⟩
    · obtain ⟨hsource, g, hg, hcell⟩ := ih h
      exact ⟨hsource, g, List.mem_cons_of_mem _ hg, hcell⟩

end Formula

/-! ## Programs -/

def BlockKind.formulas : BlockKind → List Formula
  | .when condition => [condition]
  | _ => []

/-- What an operation evaluates itself: volts before time. -/
def Op.formulas : Op → List Formula
  | .ramp step => [step.volts, step.time]
  | .enter _ => []

namespace Program

def formulas (program : Program) : List Formula :=
  program.blocks.toList.flatMap fun block => block.kind.formulas ++ block.ops.toList.flatMap Op.formulas

/-- Some formula of the program stores to the cell. -/
def Mutates (program : Program) (i : Nat) : Prop := ∃ f ∈ program.formulas, i ∈ f.targets

/-- What is evaluated to make an operation. -/
def needs (program : Program) : Op → List Formula
  | .ramp step => (Op.ramp step).formulas
  | .enter id =>
    match program.blocks[id]? with
    | some block => block.kind.formulas
    | none => []

variable {program : Program} {block : Block} {f : Formula}

theorem mem_formulas_of_kind (hblock : block ∈ program.blocks) (h : f ∈ block.kind.formulas) :
    f ∈ program.formulas :=
  List.mem_flatMap.2 ⟨block, Array.mem_toList_iff.2 hblock, List.mem_append_left _ h⟩

theorem mem_formulas_of_op {op : Op} (hblock : block ∈ program.blocks) (hop : op ∈ block.ops)
    (h : f ∈ op.formulas) : f ∈ program.formulas :=
  List.mem_flatMap.2 ⟨block, Array.mem_toList_iff.2 hblock,
    List.mem_append_right _ (List.mem_flatMap.2 ⟨op, Array.mem_toList_iff.2 hop, h⟩)⟩

theorem needs_subset {op : Op} (hblock : block ∈ program.blocks) (hop : op ∈ block.ops) :
    program.needs op ⊆ program.formulas := by
  intro f hf
  cases op with
  | ramp step => exact mem_formulas_of_op hblock hop hf
  | enter id =>
    rw [needs] at hf
    split at hf
    · rename_i inner hinner
      exact mem_formulas_of_kind (Array.mem_of_getElem? hinner) hf
    · cases hf

end Program

end ControlVoltage

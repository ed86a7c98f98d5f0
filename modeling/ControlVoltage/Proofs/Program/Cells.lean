import ControlVoltage.Program.Cells
import Mathlib.Data.List.Basic
import Mathlib.Data.List.Induction
import Mathlib.Data.List.Infix
import Mathlib.Data.List.Nodup
import Mathlib.Data.List.DropRight

/-!
# Cells as a map

A name keeps its position whatever is asked of a store of cells. So the cells are a map from names to
values: a name has the value that was set for it last, be it by name or by position, or else the value
that it was declared with first.

* `Cells.find?_eq_idxOf?` : a name stands for the first position that has it.
* `Cells.Call`, `Cells.run` : what can be asked of a store that changes it.
* `Cells.names_isPrefix_after` : names are only ever added, at the end.
* `Cells.Begins`, `Cells.lastSet?` : the call that adds a cell, and the value set last since a reset.
* `Cells.Begins.cell` : what a cell is from its declaration on.
-/

namespace ControlVoltage.Cells

variable {s t : Cells} {name : String} {i : Nat}

/-! ## Names and positions -/

theorem find?_eq_idxOf? (s : Cells) (name : String) : s.find? name = s.names.idxOf? name := by
  obtain ⟨cells⟩ := s
  show position? name cells = (cells.map Cell.name).idxOf? name
  induction cells with
  | nil => rfl
  | cons c cs ih =>
    rw [position?, List.map_cons, List.idxOf?_cons, ih]
    by_cases h : c.name = name <;> simp [h]

theorem find?_eq_of_names (h : s.names = t.names) (name : String) : s.find? name = t.find? name := by
  rw [find?_eq_idxOf?, find?_eq_idxOf?, h]

theorem find?_eq_none_iff : s.find? name = none ↔ name ∉ s.names := by
  rw [find?_eq_idxOf?]
  exact List.idxOf?_eq_none_iff

theorem getElem?_names_of_find? (h : s.find? name = some i) : s.names[i]? = some name := by
  rw [find?_eq_idxOf?, List.idxOf?_eq_some_iff] at h
  obtain ⟨hlt, hname, -⟩ := h
  rw [List.getElem?_eq_getElem hlt, hname]

theorem length_names (s : Cells) : s.names.length = s.size := List.length_map _

theorem lt_of_find? (h : s.find? name = some i) : i < s.size := by
  rw [← length_names]
  exact (List.getElem?_eq_some_iff.1 (getElem?_names_of_find? h)).1

theorem find?_of_isPrefix (hnames : s.names <+: t.names) (h : s.find? name = some i) :
    t.find? name = some i := by
  rw [find?_eq_idxOf?, List.idxOf?_eq_some_iff] at h ⊢
  obtain ⟨hlt, hname, hfirst⟩ := h
  refine ⟨hlt.trans_le hnames.length_le, ?_, fun j hj => ?_⟩
  · rw [← hnames.getElem hlt]
    exact hname
  · rw [← hnames.getElem (hj.trans hlt)]
    exact hfirst j hj

/-! ## Values -/

@[simp] theorem names_set (s : Cells) (i : Nat) (x : Float32) : (s.set i x).names = s.names := by
  simp only [names, set]
  apply List.ext_getElem?
  intro j
  simp only [List.getElem?_map, List.getElem?_modify]
  cases s.cells[j]? with
  | none => simp
  | some c => by_cases hj : i = j <;> simp [hj]

@[simp] theorem names_setNamed? (s : Cells) (name : String) (x : Float32) :
    ((s.setNamed? name x).getD s).names = s.names := by
  simp only [setNamed?]
  cases s.find? name <;> simp

theorem get_set {j : Nat} (h : j < s.size) (i : Nat) (x : Float32) :
    (s.set i x).get j = if i = j then x else s.get j := by
  have hcell : s.cells[j]? = some s.cells[j] := List.getElem?_eq_getElem h
  by_cases hij : i = j <;> simp [get, set, hcell, hij]

/-! ## Declarations -/

def extend (s : Cells) (name : String) (initial : Float32) : Cells :=
  ⟨s.cells ++ [{ name, initial, value := initial }]⟩

theorem names_extend (s : Cells) (name : String) (x : Float32) :
    (s.extend name x).names = s.names ++ [name] := by
  simp [extend, names]

theorem declare_of_find? (h : s.find? name = some i) (x : Float32) : s.declare name x = .ok (i, s) := by
  rw [declare, h]

theorem declare_of_not_mem (h : name ∉ s.names) (x : Float32) :
    s.declare name x =
      if x.isFinite = false then .error .nonFinite
      else if maxCells ≤ s.size then .error (.tooManyCells maxCells)
      else .ok (s.size, s.extend name x) := by
  rw [declare, find?_eq_none_iff.2 h]
  cases x.isFinite <;> rfl

/-! ## Calls -/

inductive Call where
  | declare (name : String) (initial : Float32)
  | set (i : Nat) (value : Float32)
  | setNamed (name : String) (value : Float32)
  | reset

/-- The cells after a call. They stay as they are where a declaration is refused, and where there is no
cell with the name. -/
def after (s : Cells) : Call → Cells
  | .declare name initial =>
    match s.declare name initial with
    | .ok (_, t) => t
    | .error _ => s
  | .set i value => s.set i value
  | .setNamed name value => (s.setNamed? name value).getD s
  | .reset => s.reset

def run (calls : List Call) : Cells := calls.foldl after empty

theorem run_concat (calls : List Call) (call : Call) : run (calls ++ [call]) = (run calls).after call := by
  rw [run, List.foldl_append]
  rfl

theorem after_declare_cases (s : Cells) (name : String) (x : Float32) :
    s.after (.declare name x) = s ∨
      name ∉ s.names ∧ s.size < maxCells ∧ s.declare name x = .ok (s.size, s.extend name x) ∧
        s.after (.declare name x) = s.extend name x := by
  cases hfind : s.find? name with
  | some i =>
    left
    rw [after, declare_of_find? hfind]
  | none =>
    have hnew := find?_eq_none_iff.1 hfind
    have hdeclare := declare_of_not_mem hnew x
    rw [after]
    split_ifs at hdeclare with hfinite hroom
    · left
      rw [hdeclare]
    · left
      rw [hdeclare]
    · right
      refine ⟨hnew, Nat.lt_of_not_le hroom, hdeclare, ?_⟩
      rw [hdeclare]

theorem names_isPrefix_after (s : Cells) (call : Call) : s.names <+: (s.after call).names := by
  cases call with
  | declare name x =>
    rcases after_declare_cases s name x with hsame | ⟨-, -, -, hmore⟩
    · rw [hsame]
    · rw [hmore, names_extend]
      apply List.prefix_append
  | set i x => rw [after, names_set]
  | setNamed name x => rw [after, names_setNamed?]
  | reset => rw [after, names_reset]

theorem names_isPrefix_run (before later : List Call) :
    (run before).names <+: (run (before ++ later)).names := by
  induction later using List.reverseRecOn with
  | nil => rw [List.append_nil]
  | append_singleton later call ih =>
    rw [← List.append_assoc, run_concat]
    exact ih.trans (names_isPrefix_after _ call)

/-! ## The value set last -/

namespace Call

def isReset : Call → Bool
  | .reset => true
  | _ => false

/-- The value that a call sets for a name, also when it is set by the position of the name. -/
def value? (name : String) (i : Nat) : Call → Option Float32
  | .set j value => if j = i then some value else none
  | .setNamed other value => if other = name then some value else none
  | _ => none

end Call

/-- The value set last for a name with this position, since the last reset. -/
def lastSet? (name : String) (i : Nat) (calls : List Call) : Option Float32 :=
  ((calls.rtakeWhile fun call => !call.isReset).filterMap (Call.value? name i)).getLast?

theorem lastSet?_reset (name : String) (i : Nat) (calls : List Call) :
    lastSet? name i (calls ++ [.reset]) = none := by
  rw [lastSet?, List.rtakeWhile_concat_neg _ _ _ (by simp [Call.isReset])]
  rfl

theorem lastSet?_concat {call : Call} (h : call.isReset = false) (name : String) (i : Nat)
    (calls : List Call) :
    lastSet? name i (calls ++ [call]) = (call.value? name i).or (lastSet? name i calls) := by
  rw [lastSet?, List.rtakeWhile_concat_pos _ _ _ (by simp [h]), List.filterMap_append]
  cases hvalue : call.value? name i <;> simp [hvalue, lastSet?]

theorem getElem?_after {c : Cell} (hcell : s.cells[i]? = some c) (hname : s.find? c.name = some i)
    (call : Call) :
    (s.after call).cells[i]? =
      some { c with
        value := if call.isReset then c.initial else (call.value? c.name i).getD c.value } := by
  cases call with
  | declare name x =>
    rcases after_declare_cases s name x with hsame | ⟨-, -, -, hmore⟩
    · rw [hsame]
      exact hcell
    · rw [hmore, extend, List.getElem?_append_left (lt_of_find? hname)]
      exact hcell
  | set j x =>
    by_cases hj : j = i <;> simp [after, set, Call.isReset, Call.value?, hcell, hj]
  | setNamed other x =>
    rw [after, setNamed?]
    cases hother : s.find? other with
    | none =>
      have hne : other ≠ c.name := by
        rintro rfl
        rw [hname] at hother
        cases hother
      simp [Call.isReset, Call.value?, hcell, hne]
    | some j =>
      -- A position has one name, and a name one position.
      have hsame : j = i ↔ other = c.name := by
        constructor
        · rintro rfl
          exact Option.some.inj ((getElem?_names_of_find? hother).symm.trans
            (getElem?_names_of_find? hname))
        · rintro rfl
          exact Option.some.inj (hother.symm.trans hname)
      by_cases hj : j = i
      · simp [set, Call.isReset, Call.value?, hcell, hj, hsame.1 hj]
      · simp [set, Call.isReset, Call.value?, hcell, hj, mt hsame.2 hj]
  | reset => simp [after, reset, Call.isReset, hcell]

/-! ## From its declaration on -/

/-- One of the calls adds the cell with this name: it is the first that gets to declare it, and gives it
this value and this position. `later` are the calls after it. -/
def Begins (calls : List Call) (name : String) (initial : Float32) (i : Nat) (later : List Call) : Prop :=
  ∃ before t, calls = before ++ .declare name initial :: later ∧ name ∉ (run before).names ∧
    (run before).declare name initial = .ok (i, t)

variable {calls later : List Call} {initial : Float32}

theorem Begins.concat (h : Begins calls name initial i later) (call : Call) :
    Begins (calls ++ [call]) name initial i (later ++ [call]) := by
  obtain ⟨before, t, rfl, hnew, hdeclare⟩ := h
  exact ⟨before, t, List.append_assoc _ _ _, hnew, hdeclare⟩

theorem find?_extend (hnew : name ∉ s.names) (x : Float32) :
    (s.extend name x).find? name = some s.size := by
  have hlength : (s.extend name x).names.length = s.size + 1 := by
    rw [names_extend, List.length_append, length_names, List.length_singleton]
  rw [find?_eq_idxOf?, List.idxOf?_eq_some_iff]
  refine ⟨by omega, ?_, fun j hj => ?_⟩
  · simp [names_extend, length_names]
  · have hless : j < s.names.length := by rwa [length_names]
    simp only [names_extend, List.getElem_append_left hless]
    exact fun heq => hnew (heq ▸ List.getElem_mem hless)

theorem declare_eq_ok_of_not_mem (hnew : name ∉ s.names) {x : Float32}
    (h : s.declare name x = .ok (i, t)) : i = s.size ∧ t = s.extend name x := by
  rw [declare_of_not_mem hnew] at h
  split_ifs at h
  cases h
  exact ⟨rfl, rfl⟩

/-- From its declaration on, a cell has its position for ever, and the value that was set last. -/
theorem Begins.cell (h : Begins calls name initial i later) :
    (run calls).find? name = some i ∧
      (run calls).cells[i]? = some ⟨name, initial, (lastSet? name i later).getD initial⟩ := by
  obtain ⟨before, t, rfl, hnew, hdeclare⟩ := h
  -- By the last call: what it does to the cell is read off the cell as it is then.
  induction later using List.reverseRecOn with
  | nil =>
    rw [run_concat, after, hdeclare]
    obtain ⟨rfl, rfl⟩ := declare_eq_ok_of_not_mem hnew hdeclare
    refine ⟨find?_extend hnew initial, ?_⟩
    simp [extend, size, lastSet?]
  | append_singleton later call ih =>
    obtain ⟨hfind, hcell⟩ := ih
    have hsplit : before ++ .declare name initial :: (later ++ [call]) =
        (before ++ .declare name initial :: later) ++ [call] := by
      rw [List.append_assoc, List.cons_append]
    rw [hsplit, run_concat]
    refine ⟨find?_of_isPrefix (names_isPrefix_after _ call) hfind, ?_⟩
    rw [getElem?_after hcell hfind call]
    cases hreset : call.isReset with
    | true =>
      obtain rfl : call = .reset := by cases call <;> first | rfl | cases hreset
      rw [lastSet?_reset]
      rfl
    | false =>
      rw [lastSet?_concat hreset]
      cases call.value? name i <;> rfl

theorem mem_names_run_iff :
    name ∈ (run calls).names ↔ ∃ initial i later, Begins calls name initial i later := by
  constructor
  · induction calls using List.reverseRecOn with
    | nil => exact fun h => absurd h List.not_mem_nil
    | append_singleton calls call ih =>
      intro h
      by_cases hbefore : name ∈ (run calls).names
      · obtain ⟨initial, i, later, hbegins⟩ := ih hbefore
        exact ⟨initial, i, later ++ [call], hbegins.concat call⟩
      · rw [run_concat] at h
        cases call with
        | declare other x =>
          rcases after_declare_cases (run calls) other x with hsame | ⟨hnew, -, hdeclare, hmore⟩
          · rw [hsame] at h
            exact absurd h hbefore
          · rw [hmore, names_extend, List.mem_append, List.mem_singleton] at h
            obtain rfl := h.resolve_left hbefore
            exact ⟨x, (run calls).size, [], calls, _, rfl, hnew, hdeclare⟩
        | set j x =>
          rw [after, names_set] at h
          exact absurd h hbefore
        | setNamed other x =>
          rw [after, names_setNamed?] at h
          exact absurd h hbefore
        | reset =>
          rw [after, names_reset] at h
          exact absurd h hbefore
  · rintro ⟨initial, i, later, hbegins⟩
    exact List.mem_of_getElem? (getElem?_names_of_find? hbegins.cell.1)

theorem valueOf?_of_cell {c : Cell} (hname : s.find? name = some i) (hcell : s.cells[i]? = some c) :
    s.valueOf? name = some c.value := by
  rw [valueOf?, hname, Option.map_some, get, hcell]

theorem Begins.valueOf? (h : Begins calls name initial i later) :
    (run calls).valueOf? name = some ((lastSet? name i later).getD initial) :=
  valueOf?_of_cell h.cell.1 h.cell.2

theorem valueOf?_eq_none_iff : s.valueOf? name = none ↔ name ∉ s.names := by
  rw [valueOf?, Option.map_eq_none_iff]
  exact find?_eq_none_iff

theorem find?_after_declare {x : Float32} (h : s.declare name x = .ok (i, t)) : t.find? name = some i := by
  cases hfind : s.find? name with
  | some j =>
    rw [declare_of_find? hfind] at h
    cases h
    exact hfind
  | none =>
    obtain ⟨rfl, rfl⟩ := declare_eq_ok_of_not_mem (find?_eq_none_iff.1 hfind) h
    exact find?_extend (find?_eq_none_iff.1 hfind) x

theorem find?_run_of_declare {before later : List Call} {x : Float32}
    (h : (run before).declare name x = .ok (i, t)) :
    (run (before ++ .declare name x :: later)).find? name = some i := by
  have hrun : run (before ++ [.declare name x]) = t := by
    rw [run_concat, after, h]
  have hnames := names_isPrefix_run (before ++ [.declare name x]) later
  rw [hrun, List.append_assoc, List.singleton_append] at hnames
  exact find?_of_isPrefix hnames (find?_after_declare h)

theorem getElem?_set_of_ne {j : Nat} (h : j ≠ i) (x : Float32) : (s.set i x).cells[j]? = s.cells[j]? := by
  rw [set, List.getElem?_modify]
  simp [h.symm]

theorem valueOf?_setNamed_of_ne {other : String} (h : other ≠ name) (x : Float32) :
    (s.after (.setNamed name x)).valueOf? other = s.valueOf? other := by
  have hnames : (s.after (.setNamed name x)).names = s.names := names_setNamed? s name x
  rw [valueOf?, valueOf?, find?_eq_of_names hnames]
  cases hother : s.find? other with
  | none => rfl
  | some j =>
    rw [Option.map_some, Option.map_some, after, setNamed?]
    cases hname : s.find? name with
    | none => rfl
    | some i =>
      have hne : i ≠ j := by
        rintro rfl
        exact h (Option.some.inj ((getElem?_names_of_find? hother).symm.trans
          (getElem?_names_of_find? hname)))
      rw [Option.map_some, Option.getD_some, get_set (lt_of_find? hother), if_neg hne]

end ControlVoltage.Cells

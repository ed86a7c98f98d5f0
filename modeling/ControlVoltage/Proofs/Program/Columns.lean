import ControlVoltage.Program.Columns
import ControlVoltage.Proofs.Program.Cells
import Mathlib.Data.List.Zip

/-!
# Columns in step

Three columns that are changed one after the other stay in step, also where a declaration is refused at
either of its two exits. So they tell the cells of a store, and every call does to the columns what it
does to these cells.

* `Columns.Aligned` : columns in step; `Aligned.declare_cases` is all that a declaration can do to them.
* `Columns.toCells` : the cells that columns tell, with one lemma for each operation.
* `Columns.Aligned.after?`, `run?_eq` : a call, and all calls from empty columns on.
* `Columns.map_laws` : the columns as a map.
-/

namespace ControlVoltage.Columns

open Cells (maxCells Call)

variable {s t : Columns} {name : String} {i : Nat}

/-! ## Columns in step -/

/-- The columns are in step, and the names apart. -/
structure Aligned (s : Columns) : Prop where
  initials_length : s.initials.length = s.size
  values_length : s.values.length = s.size
  few : s.size ≤ maxCells
  nodup : s.names.Nodup

theorem aligned_empty : empty.Aligned := ⟨rfl, rfl, Nat.zero_le _, List.nodup_nil⟩

def extend (s : Columns) (name : String) (initial : Float32) : Columns :=
  ⟨s.names ++ [name], s.initials ++ [initial], s.values ++ [initial]⟩

theorem Aligned.extend (h : s.Aligned) (hnew : name ∉ s.names) (hroom : s.size < maxCells)
    (x : Float32) : (s.extend name x).Aligned where
  initials_length := by simp [Columns.extend, size, h.initials_length]
  values_length := by simp [Columns.extend, size, h.values_length]
  few := by
    simp only [Columns.extend, size, List.length_append, List.length_singleton]
    exact hroom
  nodup := by
    refine List.nodup_append.2 ⟨h.nodup, List.nodup_singleton name, ?_⟩
    rintro other hother _ hname rfl
    exact hnew (List.mem_singleton.1 hname ▸ hother)

theorem Aligned.set (h : s.Aligned) (i : Nat) (x : Float32) : (s.set i x).Aligned where
  initials_length := h.initials_length
  values_length := by
    rw [Columns.set, List.length_set]
    exact h.values_length
  few := h.few
  nodup := h.nodup

theorem Aligned.setNamed (h : s.Aligned) (name : String) (x : Float32) :
    (s.setNamed name x).2.Aligned := by
  rw [Columns.setNamed]
  cases s.find? name with
  | none => exact h
  | some i => exact h.set i x

theorem Aligned.reset (h : s.Aligned) : s.reset.Aligned :=
  ⟨h.initials_length, h.initials_length, h.few, h.nodup⟩

theorem find?_eq_none_iff : s.find? name = none ↔ name ∉ s.names := List.idxOf?_eq_none_iff

theorem declare_of_find? (h : s.find? name = some i) (x : Float32) :
    s.declare name x = some (.ok i, s) := by
  rw [declare, h]

theorem push?_of_lt {α : Type} {column : List α} (h : column.length < maxCells) (x : α) :
    push? column x = some (column ++ [x]) := if_pos h

theorem Aligned.declare_cases (h : s.Aligned) (name : String) (x : Float32) :
    (∃ i, s.find? name = some i ∧ s.declare name x = some (.ok i, s)) ∨
      name ∉ s.names ∧
        (x.isFinite = false ∧ s.declare name x = some (.error .nonFinite, s) ∨
          x.isFinite = true ∧ s.size = maxCells ∧
            s.declare name x = some (.error (.tooManyCells maxCells), s) ∨
          x.isFinite = true ∧ s.size < maxCells ∧
            s.declare name x = some (.ok s.size, s.extend name x)) := by
  cases hfind : s.find? name with
  | some i => exact .inl ⟨i, rfl, declare_of_find? hfind x⟩
  | none =>
    refine .inr ⟨find?_eq_none_iff.1 hfind, ?_⟩
    rw [declare, hfind]
    cases hfinite : x.isFinite with
    | false => exact .inl ⟨rfl, rfl⟩
    | true =>
      by_cases hfull : s.names.length = maxCells
      · exact .inr (.inl ⟨rfl, hfull, if_pos hfull⟩)
      · have hroom : s.names.length < maxCells := Nat.lt_of_le_of_ne h.few hfull
        have hinitials : s.initials.length < maxCells := h.initials_length ▸ hroom
        have hvalues : s.values.length < maxCells := h.values_length ▸ hroom
        refine .inr (.inr ⟨rfl, hroom, ?_⟩)
        simp only [Bool.not_true, Bool.false_eq_true, if_false, if_neg hfull]
        rw [push?_of_lt hroom, push?_of_lt hinitials, push?_of_lt hvalues]
        rfl

/-! ## The cells that columns tell -/

/-- The cells with these names, declared values and values. -/
def toCells (s : Columns) : Cells :=
  ⟨(s.names.zip (s.initials.zip s.values)).map fun (name, initial, value) => ⟨name, initial, value⟩⟩

theorem toCells_eq {t : Cells} (hnames : t.names = s.names)
    (hinitials : t.cells.map Cell.initial = s.initials) (hvalues : t.cells.map Cell.value = s.values) :
    s.toCells = t := by
  obtain ⟨cells⟩ := t
  rw [toCells, ← hnames, ← hinitials, ← hvalues, Cells.names, List.zip_map', List.zip_map',
    List.map_map]
  simp [Function.comp_def]

theorem Aligned.names_toCells (h : s.Aligned) : s.toCells.names = s.names := by
  have hlength : s.names.length ≤ (s.initials.zip s.values).length := by
    rw [List.length_zip, h.initials_length, h.values_length, Nat.min_self]
    exact Nat.le_refl _
  rw [toCells, Cells.names, List.map_map]
  exact List.map_fst_zip hlength

theorem Aligned.pairs_toCells (h : s.Aligned) :
    s.toCells.cells.map (fun c => (c.initial, c.value)) = s.initials.zip s.values := by
  have hlength : (s.initials.zip s.values).length ≤ s.names.length := by
    rw [List.length_zip, h.initials_length]
    exact Nat.min_le_left _ _
  rw [toCells, List.map_map]
  exact List.map_snd_zip hlength

theorem Aligned.initials_toCells (h : s.Aligned) :
    s.toCells.cells.map Cell.initial = s.initials := by
  have hpairs := congrArg (List.map Prod.fst) h.pairs_toCells
  rw [List.map_map, List.map_fst_zip (by rw [h.initials_length, h.values_length])] at hpairs
  exact hpairs

theorem Aligned.values_toCells (h : s.Aligned) : s.toCells.cells.map Cell.value = s.values := by
  have hpairs := congrArg (List.map Prod.snd) h.pairs_toCells
  rw [List.map_map, List.map_snd_zip (by rw [h.initials_length, h.values_length])] at hpairs
  exact hpairs

theorem Aligned.size_toCells (h : s.Aligned) : s.toCells.size = s.size := by
  rw [← Cells.length_names, h.names_toCells, size]

theorem Aligned.find?_toCells (h : s.Aligned) (name : String) :
    s.toCells.find? name = s.find? name := by
  rw [Cells.find?_eq_idxOf?, h.names_toCells, find?]

theorem Aligned.get_toCells (h : s.Aligned) (i : Nat) : s.toCells.get i = s.get i := by
  rw [get, ← h.values_toCells, List.getElem?_map, Cells.get]
  cases s.toCells.cells[i]? <;> rfl

theorem Aligned.valueOf?_toCells (h : s.Aligned) (name : String) :
    s.toCells.valueOf? name = s.valueOf? name := by
  rw [Cells.valueOf?, valueOf?, h.find?_toCells]
  cases s.find? name with
  | none => rfl
  | some i => rw [Option.map_some, Option.map_some, h.get_toCells]

theorem Aligned.toList_toCells (h : s.Aligned) : s.toCells.toList = s.toList := by
  rw [toList, ← h.names_toCells, ← h.values_toCells, Cells.names, List.zip_map']
  rfl

theorem Aligned.toCells_extend (h : s.Aligned) (name : String) (x : Float32) :
    (s.extend name x).toCells = s.toCells.extend name x := by
  apply toCells_eq
  · rw [Cells.names_extend, h.names_toCells, Columns.extend]
  · rw [Cells.extend, List.map_append, h.initials_toCells, Columns.extend]
    rfl
  · rw [Cells.extend, List.map_append, h.values_toCells, Columns.extend]
    rfl

theorem Aligned.toCells_set (h : s.Aligned) (i : Nat) (x : Float32) :
    (s.set i x).toCells = s.toCells.set i x := by
  apply toCells_eq
  · rw [Cells.names_set, h.names_toCells, Columns.set]
  · rw [Columns.set, ← h.initials_toCells, Cells.set]
    apply List.ext_getElem?
    intro j
    rw [List.getElem?_map, List.getElem?_map, List.getElem?_modify]
    cases s.toCells.cells[j]? with
    | none => simp
    | some c => by_cases hj : i = j <;> simp [hj]
  · rw [Columns.set, ← h.values_toCells, Cells.set]
    apply List.ext_getElem?
    intro j
    rw [List.getElem?_map, List.getElem?_modify, List.getElem?_set, List.length_map]
    by_cases hj : i = j
    · subst hj
      by_cases hlt : i < s.toCells.cells.length <;> simp [hlt]
    · simp [hj]

theorem Aligned.toCells_setNamed (h : s.Aligned) (name : String) (x : Float32) :
    (s.setNamed name x).2.toCells = s.toCells.after (.setNamed name x) ∧
      (s.setNamed name x).1 = (s.toCells.setNamed? name x).isSome := by
  rw [Cells.after, Cells.setNamed?, h.find?_toCells, Columns.setNamed]
  cases s.find? name with
  | none => exact ⟨rfl, rfl⟩
  | some i => exact ⟨h.toCells_set i x, rfl⟩

theorem Aligned.toCells_reset (h : s.Aligned) : s.reset.toCells = s.toCells.reset := by
  apply toCells_eq
  · rw [Cells.names_reset, h.names_toCells, Columns.reset]
  · rw [Columns.reset, ← h.initials_toCells, Cells.reset, List.map_map]
    rfl
  · rw [Columns.reset, ← h.initials_toCells, Cells.reset, List.map_map]
    rfl

theorem Aligned.declare (h : s.Aligned) (name : String) (x : Float32) :
    ∃ t, s.declare name x = some ((s.toCells.declare name x).map Prod.fst, t) ∧ t.Aligned ∧
      t.toCells = s.toCells.after (.declare name x) := by
  rcases h.declare_cases name x with ⟨i, hfind, hdeclare⟩ | ⟨hnew, hcases⟩
  · rw [← h.find?_toCells] at hfind
    have hcells := Cells.declare_of_find? hfind x
    refine ⟨s, ?_, h, ?_⟩
    · rw [hdeclare, hcells]
      rfl
    · rw [Cells.after, hcells]
  · have hcells := Cells.declare_of_not_mem (h.names_toCells ▸ hnew) x
    rw [h.size_toCells] at hcells
    rw [Cells.after]
    rcases hcases with ⟨hfinite, hdeclare⟩ | ⟨hfinite, hfull, hdeclare⟩ | ⟨hfinite, hroom, hdeclare⟩
    · rw [if_pos hfinite] at hcells
      rw [hdeclare, hcells]
      exact ⟨s, rfl, h, rfl⟩
    · rw [if_neg (by simp [hfinite]), if_pos hfull.ge] at hcells
      rw [hdeclare, hcells]
      exact ⟨s, rfl, h, rfl⟩
    · rw [if_neg (by simp [hfinite]), if_neg (Nat.not_le.2 hroom)] at hcells
      rw [hdeclare, hcells]
      exact ⟨s.extend name x, rfl, h.extend hnew hroom x, h.toCells_extend name x⟩

/-! ## Calls -/

/-- The columns after a call, unless it breaks down. -/
def after? (s : Columns) : Call → Option Columns
  | .declare name initial => (s.declare name initial).map Prod.snd
  | .set i value => some (s.set i value)
  | .setNamed name value => some (s.setNamed name value).2
  | .reset => some s.reset

/-- The columns after calls, from empty ones on, unless one of them breaks down. -/
def run? (calls : List Call) : Option Columns := calls.foldlM after? empty

/-- No call breaks down, or gets columns in step out of step; it does to them what it does to the cells. -/
theorem Aligned.after? (h : s.Aligned) (call : Call) :
    ∃ t, s.after? call = some t ∧ t.Aligned ∧ t.toCells = s.toCells.after call := by
  cases call with
  | declare name x =>
    obtain ⟨t, hdeclare, haligned, hcells⟩ := h.declare name x
    refine ⟨t, ?_, haligned, hcells⟩
    rw [Columns.after?, hdeclare, Option.map_some]
  | set i x => exact ⟨s.set i x, rfl, h.set i x, h.toCells_set i x⟩
  | setNamed name x =>
    exact ⟨(s.setNamed name x).2, rfl, h.setNamed name x, (h.toCells_setNamed name x).1⟩
  | reset => exact ⟨s.reset, rfl, h.reset, h.toCells_reset⟩

theorem run?_concat (calls : List Call) (call : Call) :
    run? (calls ++ [call]) = (run? calls).bind fun s => s.after? call := by
  simp [run?, List.foldlM_append]

/-- Whatever is called, the columns are in step, and tell the cells after the same calls. -/
theorem run?_eq (calls : List Call) :
    ∃ s, run? calls = some s ∧ s.Aligned ∧ s.toCells = Cells.run calls := by
  induction calls using List.reverseRecOn with
  | nil => exact ⟨empty, rfl, aligned_empty, rfl⟩
  | append_singleton calls call ih =>
    obtain ⟨s, hrun, haligned, hcells⟩ := ih
    obtain ⟨t, hafter, haligned', hcells'⟩ := haligned.after? call
    refine ⟨t, ?_, haligned', ?_⟩
    · rw [run?_concat, hrun, Option.bind_some, hafter]
    · rw [hcells', hcells, Cells.run_concat]

theorem aligned_of_run? {calls : List Call} (h : run? calls = some s) :
    s.Aligned ∧ s.toCells = Cells.run calls := by
  obtain ⟨t, hrun, haligned⟩ := run?_eq calls
  obtain rfl : s = t := Option.some.inj (h.symm.trans hrun)
  exact haligned

/-! ## Laws -/

/-- One of the calls adds the cell with this name: it is the first that gets to declare it, and gives it
this value and this position. `later` are the calls after it. -/
def Begins (calls : List Call) (name : String) (initial : Float32) (i : Nat) (later : List Call) : Prop :=
  ∃ before s t, calls = before ++ .declare name initial :: later ∧ run? before = some s ∧
    name ∉ s.names ∧ s.declare name initial = some (.ok i, t)

theorem Aligned.declare_eq_ok_iff (h : s.Aligned) {x : Float32} :
    (∃ t, s.declare name x = some (.ok i, t)) ↔ ∃ t, s.toCells.declare name x = .ok (i, t) := by
  obtain ⟨t, hdeclare, -⟩ := h.declare name x
  rw [hdeclare]
  cases s.toCells.declare name x with
  | error error => simp [Except.map]
  | ok outcome => simp [Except.map, Prod.ext_iff]

theorem begins_iff {calls later : List Call} {initial : Float32} :
    Begins calls name initial i later ↔ Cells.Begins calls name initial i later := by
  constructor
  · rintro ⟨before, s, t, hcalls, hrun, hnew, hdeclare⟩
    obtain ⟨haligned, hcells⟩ := aligned_of_run? hrun
    obtain ⟨t', hdeclare'⟩ := haligned.declare_eq_ok_iff.1 ⟨t, hdeclare⟩
    rw [← haligned.names_toCells, hcells] at hnew
    rw [hcells] at hdeclare'
    exact ⟨before, t', hcalls, hnew, hdeclare'⟩
  · rintro ⟨before, t, hcalls, hnew, hdeclare⟩
    obtain ⟨s, hrun, haligned, hcells⟩ := run?_eq before
    rw [← hcells] at hnew hdeclare
    obtain ⟨t', hdeclare'⟩ := haligned.declare_eq_ok_iff.2 ⟨t, hdeclare⟩
    rw [haligned.names_toCells] at hnew
    exact ⟨before, s, t', hcalls, hrun, hnew, hdeclare'⟩

/-- The columns after any calls, refused declarations among them. No call breaks down.
* They are in step, with at most `maxCells` in each, and the names are apart.
* A position that a declaration gave stays that of the name. Declaring the name again gives it once more,
  and changes nothing.
* A declaration fails for a new name only, and leaves the columns as they were.
* A name has the value that was set for it last since the last reset, or the one that it was declared with
  first; after a reset it has that one. Names that were never declared have none.
* Setting a cell, by position or by name, leaves all others as they are.
* The cells that the columns tell are those after the same calls. -/
theorem map_laws (calls : List Call) :
    ∃ s, run? calls = some s ∧
      (s.initials.length = s.names.length ∧ s.values.length = s.names.length ∧
        s.names.length ≤ maxCells ∧ s.names.Nodup) ∧
      (∀ before name x later i u t, calls = before ++ .declare name x :: later →
        run? before = some u → u.declare name x = some (.ok i, t) →
          s.find? name = some i ∧ ∀ y, s.declare name y = some (.ok i, s)) ∧
      (∀ name x, ∃ outcome t, s.declare name x = some (outcome, t) ∧
        ∀ error, outcome = .error error → t = s ∧ name ∉ s.names ∧
          (x.isFinite = false ∧ error = .nonFinite ∨
            x.isFinite = true ∧ s.size = maxCells ∧ error = .tooManyCells maxCells)) ∧
      (∀ name initial i later, Begins calls name initial i later →
        s.valueOf? name = some ((Cells.lastSet? name i later).getD initial) ∧
          s.reset.valueOf? name = some initial) ∧
      (∀ name, s.valueOf? name = none ↔ ¬ ∃ initial i later, Begins calls name initial i later) ∧
      (∀ i x j, j ≠ i → (s.set i x).toCells.cells[j]? = s.toCells.cells[j]?) ∧
      (∀ name x other, other ≠ name →
        (s.setNamed name x).2.valueOf? other = s.valueOf? other) ∧
      s.toCells = Cells.run calls := by
  obtain ⟨s, hrun, h, hcells⟩ := run?_eq calls
  refine ⟨s, hrun, ⟨h.initials_length, h.values_length, h.few, h.nodup⟩, ?_, ?_, ?_, ?_, ?_, ?_, hcells⟩
  · rintro before name x later i u t rfl hbefore hdeclare
    obtain ⟨hu, hucells⟩ := aligned_of_run? hbefore
    obtain ⟨t', hdeclare'⟩ := hu.declare_eq_ok_iff.1 ⟨t, hdeclare⟩
    rw [hucells] at hdeclare'
    have hfind : s.find? name = some i := by
      rw [← h.find?_toCells, hcells]
      exact Cells.find?_run_of_declare hdeclare'
    exact ⟨hfind, declare_of_find? hfind⟩
  · intro name x
    rcases h.declare_cases name x with ⟨i, -, hdeclare⟩ | ⟨hnew, hcases⟩
    · exact ⟨_, _, hdeclare, nofun⟩
    · rcases hcases with ⟨hfinite, hdeclare⟩ | ⟨hfinite, hfull, hdeclare⟩ | ⟨-, -, hdeclare⟩
      · refine ⟨_, _, hdeclare, ?_⟩
        rintro error ⟨⟩
        exact ⟨rfl, hnew, .inl ⟨hfinite, rfl⟩⟩
      · refine ⟨_, _, hdeclare, ?_⟩
        rintro error ⟨⟩
        exact ⟨rfl, hnew, .inr ⟨hfinite, hfull, rfl⟩⟩
      · exact ⟨_, _, hdeclare, nofun⟩
  · intro name initial i later hbegins
    have hnow := (begins_iff.1 hbegins).valueOf?
    have hreset := ((begins_iff.1 hbegins).concat .reset).valueOf?
    rw [Cells.run_concat, Cells.lastSet?_reset, ← hcells] at hreset
    rw [← hcells, h.valueOf?_toCells] at hnow
    refine ⟨hnow, ?_⟩
    rw [← h.reset.valueOf?_toCells, h.toCells_reset]
    exact hreset
  · intro name
    rw [← h.valueOf?_toCells, hcells, Cells.valueOf?_eq_none_iff, Cells.mem_names_run_iff]
    simp only [begins_iff]
  · intro i x j hj
    rw [h.toCells_set]
    exact Cells.getElem?_set_of_ne hj x
  · intro name x other hother
    rw [← (h.setNamed name x).valueOf?_toCells, ← h.valueOf?_toCells,
      (h.toCells_setNamed name x).1]
    exact Cells.valueOf?_setNamed_of_ne hother x

/-- A cell that is set by name and by position, with a reset in between, and then declared again; and a
declaration that is refused, among the calls and after them. -/
theorem map_laws_mixed :
    let later : List Call := [.setNamed "x" 7, .reset, .declare "y" 2, .declare "z" (1 / 0), .set 0 5,
      .setNamed "y" 3, .declare "x" 9]
    ∃ s, run? (.declare "x" 1 :: later) = some s ∧
      s.initials.length = s.names.length ∧ s.values.length = s.names.length ∧
      Begins (.declare "x" 1 :: later) "x" 1 0 later ∧ s.find? "x" = some 0 ∧
      s.valueOf? "x" = some 5 ∧ s.reset.valueOf? "x" = some 1 ∧ s.declare "x" 4 = some (.ok 0, s) ∧
      s.declare "z" (1 / 0) = some (.error .nonFinite, s) ∧
      (s.setNamed "y" 6).2.valueOf? "x" = some 5 ∧
      (s.set 1 6).toCells.cells[0]? = s.toCells.cells[0]? := by
  intro later
  obtain ⟨s, hrun, ⟨hinitials, hvalues, -⟩, hposition, hrefused, hvalue, -, hset, hsetNamed, -⟩ :=
    map_laws (.declare "x" 1 :: later)
  have hs : s = ⟨["x", "y"], [1, 2], [5, 3]⟩ := Option.some.inj (hrun.symm.trans (by decide +kernel))
  have hdeclare : empty.declare "x" 1 = some (.ok 0, ⟨["x"], [1], [1]⟩) := by decide +kernel
  have hbegins : Begins (.declare "x" 1 :: later) "x" 1 0 later :=
    ⟨[], empty, _, rfl, rfl, List.not_mem_nil, hdeclare⟩
  obtain ⟨hfind, hagain⟩ := hposition [] "x" 1 later 0 empty _ rfl rfl hdeclare
  obtain ⟨hnow, hreset⟩ := hvalue "x" 1 0 later hbegins
  have hlast : Cells.lastSet? "x" 0 later = some 5 := by decide +kernel
  rw [hlast, Option.getD_some] at hnow
  have hfails : (s.declare "z" (1 / 0)).map Prod.fst = some (.error .nonFinite) := by
    rw [hs]
    decide +kernel
  obtain ⟨outcome, t, hthen, hcause⟩ := hrefused "z" (1 / 0)
  rw [hthen] at hfails
  obtain rfl : outcome = .error .nonFinite := Option.some.inj hfails
  obtain ⟨rfl, -⟩ := hcause .nonFinite rfl
  exact ⟨t, hrun, hinitials, hvalues, hbegins, hfind, hnow, hreset, hagain 4, hthen,
    (hsetNamed "y" 6 "x" (by decide)).trans hnow, hset 1 6 0 (by decide)⟩

/-- The seventeenth name is refused, and a name that is there is not. -/
example :
    let names := ["a", "b", "c", "d", "e", "f", "g", "h", "i", "j", "k", "l", "m", "n", "o", "p"]
    ((run? (names.map fun name => .declare name 0)).bind fun s => s.declare "q" 0).map Prod.fst =
        some (.error (.tooManyCells 16)) ∧
      ((run? (names.map fun name => .declare name 0)).bind fun s => s.declare "p" 1).map Prod.fst =
        some (.ok 15) := by
  decide +kernel

end ControlVoltage.Columns

import ControlVoltage.Proofs.Output.Rows

/-!
# Traces in batches

A trace can be written at once, or in batches as the frames arrive. Both give the same text, whatever
the batches are. Read back as lines of fields, this text is a table: a line of headings, and a line for
every frame.

* `Trace.fields` : the fields of a text, line by line; `fields_lines` : lines are read back as written.
* `Trace.cells` : the fields of a row; `fields_text` : those of a trace.
* `Recorder.batches_eq_text` : batches give the trace that is written at once.
-/

namespace ControlVoltage

namespace Trace

/-! ## Lines and fields -/

/-- The fields of a text, separated by commas, line by line. After the last line break there is one
more line. -/
def fields (text : String) : List (List String) :=
  (text.toList.splitOn '\n').map fun line => (line.splitOn ',').map String.ofList

def line (cells : List String) : String := ",".intercalate cells ++ "\n"

def Plain (cell : String) : Prop := ',' ∉ cell.toList ∧ '\n' ∉ cell.toList

instance (cell : String) : Decidable (Plain cell) :=
  inferInstanceAs (Decidable (',' ∉ cell.toList ∧ '\n' ∉ cell.toList))

theorem plain_of_numeric {cell : String} (h : Numeric cell) : Plain cell :=
  ⟨fun hc => absurd (h _ hc) (by decide), fun hc => absurd (h _ hc) (by decide)⟩

theorem toList_line (cells : List String) :
    (line cells).toList = [','].intercalate (cells.map String.toList) ++ ['\n'] := by
  rw [line, String.toList_append, String.toList_intercalate]
  rfl

theorem break_not_mem_intercalate {cells : List String} (h : ∀ cell ∈ cells, Plain cell) :
    '\n' ∉ [','].intercalate (cells.map String.toList) := by
  have hbreaks : breaks (",".intercalate cells) = 0 :=
    breaks_intercalate fun cell hcell => List.count_eq_zero.2 (h cell hcell).2
  rw [breaks, String.toList_intercalate] at hbreaks
  exact List.count_eq_zero.1 hbreaks

theorem toList_lines (rows : List (List String)) :
    (String.join (rows.map line)).toList =
      ['\n'].intercalate (rows.map (fun cells => [','].intercalate (cells.map String.toList)) ++ [[]]) := by
  induction rows with
  | nil => rfl
  | cons cells rows ih =>
    rw [List.map_cons, String.join_cons, String.toList_append, ih, toList_line, List.map_cons,
      List.cons_append, List.intercalate_cons_of_ne_nil (List.append_ne_nil_of_right_ne_nil _ (by simp))]

theorem fields_lines {rows : List (List String)} (hrows : ∀ cells ∈ rows, cells ≠ [])
    (h : ∀ cells ∈ rows, ∀ cell ∈ cells, Plain cell) :
    fields (String.join (rows.map line)) = rows ++ [[""]] := by
  have hlines : (String.join (rows.map line)).toList.splitOn '\n' =
      rows.map (fun cells => [','].intercalate (cells.map String.toList)) ++ [[]] := by
    rw [toList_lines]
    refine List.splitOn_intercalate '\n' ?_ (by simp)
    simp only [List.mem_append, List.mem_map, List.mem_singleton]
    rintro l (⟨cells, hcells, rfl⟩ | rfl)
    · exact break_not_mem_intercalate (h cells hcells)
    · exact List.not_mem_nil
  have hcells : ∀ cells ∈ rows, (([','].intercalate (cells.map String.toList)).splitOn ',').map
      String.ofList = cells := by
    intro cells hmem
    rw [List.splitOn_intercalate ',' (by simpa using fun cell hcell => (h cells hmem cell hcell).1)
      (by simpa using hrows cells hmem), List.map_map]
    simp [Function.comp_def]
  rw [fields, hlines, List.map_append, List.map_map]
  congr 1
  exact (List.map_congr_left hcells).trans (List.map_id rows)

/-! ## A table -/

def headings : List String := ["time", "out1", "out2", "out3", "out4"]

/-- The fields of a row: the seconds at its tick and the voltages, with six places each. -/
def cells (rate : Rate) (tick : Nat) (frame : Frame) : List String :=
  (rate.seconds tick.toUInt32 :: frame.toList).map (Single.fixedText 6)

theorem header_eq : header = line headings := by decide

theorem row_eq (rate : Rate) (tick : Nat) (frame : Frame) :
    row rate tick frame = line (cells rate tick frame) := rfl

theorem plain_cells {rate : Rate} {tick : Nat} {frame : Frame} :
    ∀ cell ∈ cells rate tick frame, Plain cell := by
  intro cell hcell
  obtain ⟨x, -, rfl⟩ := List.mem_map.1 hcell
  exact plain_of_numeric (numeric_fixedText 6 x)

theorem fields_text (rate : Rate) (frames : List Frame) :
    fields (text rate frames) = headings :: frames.mapIdx (cells rate) ++ [[""]] := by
  have htext : text rate frames =
      String.join ((headings :: frames.mapIdx (cells rate)).map line) := by
    have hrows : (frames.mapIdx (cells rate)).map line = frames.mapIdx (row rate) := by
      simp only [List.mapIdx_eq_zipIdx_map, List.map_map, row_eq, Function.comp_def]
    rw [text, header_eq, List.map_cons, hrows]
  have hplain : ∀ row ∈ headings :: frames.mapIdx (cells rate),
      row ≠ [] ∧ ∀ cell ∈ row, Plain cell := by
    refine List.forall_mem_cons.2 ⟨⟨List.cons_ne_nil _ _, by decide⟩, fun row hrow => ?_⟩
    obtain ⟨tick, htick, rfl⟩ := List.mem_mapIdx.1 hrow
    exact ⟨List.cons_ne_nil _ _, plain_cells⟩
  rw [htext]
  exact fields_lines (fun row hrow => (hplain row hrow).1) fun row hrow => (hplain row hrow).2

end Trace

/-! ## Batches -/

namespace Recorder

/-- It does not matter where the frames are cut into batches. -/
theorem foldl_recordAll (r : Recorder) (batches : List (List Frame)) :
    batches.foldl recordAll r = r.recordAll batches.flatten := by
  induction batches generalizing r with
  | nil => rfl
  | cons batch batches ih => rw [List.foldl_cons, ih, List.flatten_cons, recordAll_append]

/-- A recorder that is given fewer than `2 ^ 32` frames, in batches of any sizes, has written the trace
of all of them at once, and its tick is their number. Read back, the trace is a table of the headings
and one row for every frame, in order, with the seconds at the number of the row and the voltages of
the frame. -/
theorem batches_eq_text (rate : Rate) (batches : List (List Frame))
    (few : batches.flatten.length < 4294967296) :
    let frames := batches.flatten
    let r := batches.foldl recordAll (start rate)
    r.written = Trace.text rate frames ∧ r.tick.toNat = frames.length ∧
      Trace.fields r.written = Trace.headings :: frames.mapIdx (Trace.cells rate) ++ [[""]] := by
  intro frames r
  have hr : r = ⟨rate, count frames.length, Trace.arrivals rate frames⟩ :=
    (foldl_recordAll _ batches).trans (recordAll_start rate frames)
  have hwritten : r.written = Trace.text rate frames := by
    rw [hr]
    exact Trace.arrivals_eq_text rate (Nat.le_of_lt few)
  refine ⟨hwritten, ?_, ?_⟩
  · rw [hr]
    exact (toNat_count _).trans (Nat.min_eq_left (Nat.le_of_lt_succ few))
  · rw [hwritten, Trace.fields_text]

/-- Three frames in three batches, one of which is empty. -/
theorem batches_eq_text_three :
    let rate : Rate := ⟨1000, by decide⟩
    let volts : Float32 → Frame := PerChannel.replicate
    let r := [[volts 0], [], [volts 1, volts (-2.5)]].foldl recordAll (start rate)
    [volts 0, volts 1, volts (-2.5)].length < 4294967296 ∧ r.tick.toNat = 3 ∧
      Trace.fields r.written =
        [["time", "out1", "out2", "out3", "out4"],
          ["0.000000", "0.000000", "0.000000", "0.000000", "0.000000"],
          ["0.001000", "1.000000", "1.000000", "1.000000", "1.000000"],
          ["0.002000", "-2.500000", "-2.500000", "-2.500000", "-2.500000"],
          [""]] := by
  intro rate volts r
  obtain ⟨-, htick, hfields⟩ :=
    batches_eq_text rate [[volts 0], [], [volts 1, volts (-2.5)]] (by decide)
  exact ⟨by decide, htick, hfields.trans (by decide +kernel)⟩

end Recorder

end ControlVoltage

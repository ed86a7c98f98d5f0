import ControlVoltage.Output.Trace
import Mathlib.Data.List.Induction

/-!
# Rows of a trace

Every row of a trace is one line, so that a trace has as many rows as frames. A trace that is written
as its frames arrive counts rows: a frame gets the time of its place among those that arrived.

* `Trace.Numeric` : a text that numbers are made of; `numeric_fixedText`.
* `Trace.breaks` : the line breaks of a text; `breaks_row` : a row has one.
* `Trace.arrivals` : the trace of frames that arrive one by one; `Recorder.recordAll_start`.
* `Trace.arrivals_eq_text` : unless there are too many, it is the trace that is written at once.
-/

namespace ControlVoltage

/-! ## Line breaks -/

namespace Trace

def breaks (s : String) : Nat := s.toList.count '\n'

@[simp] theorem breaks_append (s t : String) : breaks (s ++ t) = breaks s + breaks t := by
  simp [breaks]

theorem breaks_intercalate {fields : List String} (h : ∀ field ∈ fields, breaks field = 0) :
    breaks (",".intercalate fields) = 0 := by
  induction fields with
  | nil => rfl
  | cons field rest ih =>
    obtain ⟨hfield, hrest⟩ := List.forall_mem_cons.1 h
    cases rest with
    | nil => simpa using hfield
    | cons next rest =>
      rw [String.intercalate_cons_cons, breaks_append, breaks_append, hfield, ih hrest]
      rfl

/-! ## Numbers -/

/-- A text of nothing but the characters that numbers are written with. -/
def Numeric (s : String) : Prop := ∀ c ∈ s.toList, c.isDigit = true ∨ c ∈ ".-NaNinf".toList

instance (s : String) : Decidable (Numeric s) := List.decidableBAll _ s.toList

theorem Numeric.append {s t : String} (hs : Numeric s) (ht : Numeric t) : Numeric (s ++ t) := by
  intro c hc
  rw [String.toList_append, List.mem_append] at hc
  exact hc.elim (hs c) (ht c)

theorem numeric_toString (n : Nat) : Numeric (toString n) := by
  intro c hc
  rw [Nat.toString_eq_ofList_toDigits, String.toList_ofList] at hc
  exact .inl (Nat.isDigit_of_mem_toDigits (by decide) (by decide) hc)

theorem numeric_zeros (n : Nat) : Numeric ("".pushn '0' n) := by
  rw [String.pushn_eq_repeat_push]
  induction n with
  | zero => exact fun c hc => absurd hc List.not_mem_nil
  | succ n ih =>
    intro c hc
    rw [Nat.repeat, String.toList_push, List.mem_append, List.mem_singleton] at hc
    rcases hc with hc | rfl
    · exact ih c hc
    · exact .inl (by decide)

theorem numeric_placesText (places units : Nat) : Numeric (placesText places units) := by
  have point : Numeric "." := by decide
  exact (((numeric_toString _).append point).append (numeric_zeros _)).append (numeric_toString _)

theorem numeric_fixedText (places : Nat) (x : Float32) : Numeric (Single.fixedText places x) := by
  have minus : ∀ units, Numeric ("-" ++ placesText places units) := by
    have sign : Numeric "-" := by decide
    exact fun units => sign.append (numeric_placesText places units)
  unfold Single.fixedText
  cases x.toModel.unpack with
  | notANumber => exact (by decide : Numeric "NaN")
  | infinity s =>
    cases s with
    | positive => exact (by decide : Numeric "inf")
    | negative => exact (by decide : Numeric "-inf")
  | zero s =>
    cases s with
    | positive => exact numeric_placesText _ _
    | negative => exact minus _
  | finite s m e h =>
    cases s with
    | positive => exact numeric_placesText _ _
    | negative => exact minus _

theorem breaks_fixedText (places : Nat) (x : Float32) : breaks (Single.fixedText places x) = 0 :=
  List.count_eq_zero.2 fun h => absurd (numeric_fixedText places x _ h) (by decide)

theorem breaks_row (rate : Rate) (tick : Nat) (frame : Frame) : breaks (row rate tick frame) = 1 := by
  have fields : ∀ field ∈ (rate.seconds tick.toUInt32 :: frame.toList).map (Single.fixedText 6),
      breaks field = 0 := by
    intro field hmem
    obtain ⟨x, -, rfl⟩ := List.mem_map.1 hmem
    exact breaks_fixedText 6 x
  rw [row, breaks_append, breaks_intercalate fields]
  rfl

/-! ## Rows as they arrive -/

/-- The trace of frames that arrive one by one. The tick stays on the last count that fits. -/
def arrivals (rate : Rate) (frames : List Frame) : String :=
  String.join (header :: frames.mapIdx fun k => row rate (min k 4294967295))

theorem arrivals_concat (rate : Rate) (frames : List Frame) (frame : Frame) :
    arrivals rate (frames ++ [frame]) =
      arrivals rate frames ++ row rate (min frames.length 4294967295) frame := by
  simp [arrivals, List.mapIdx_concat, String.join_append, String.append_assoc]

theorem breaks_arrivals (rate : Rate) (frames : List Frame) :
    breaks (arrivals rate frames) = frames.length + 1 := by
  induction frames using List.reverseRecOn with
  | nil => exact (by decide : breaks (String.join [header]) = 1)
  | append_singleton frames frame ih =>
    rw [arrivals_concat, breaks_append, breaks_row, ih, List.length_append, List.length_singleton]

/-- As long as the ticks fit, the rows are those of the frames written at once. -/
theorem arrivals_eq_text (rate : Rate) {frames : List Frame} (h : frames.length ≤ 4294967296) :
    arrivals rate frames = text rate frames := by
  have hrows : (frames.mapIdx fun k => row rate (min k 4294967295)) = frames.mapIdx (row rate) := by
    refine List.mapIdx_eq_mapIdx_iff.2 fun k hk => ?_
    rw [Nat.min_eq_left (by omega)]
  rw [arrivals, text, hrows]

end Trace

namespace Recorder

theorem recordAll_append (r : Recorder) (frames frames' : List Frame) :
    r.recordAll (frames ++ frames') = (r.recordAll frames).recordAll frames' :=
  List.foldl_append

/-- The count of the next tick, once `n` frames have arrived. -/
def count (n : Nat) : UInt32 := (min n 4294967295).toUInt32

theorem toNat_count (n : Nat) : (count n).toNat = min n 4294967295 := by
  have hlt : min n 4294967295 < UInt32.size :=
    Nat.lt_of_le_of_lt (Nat.min_le_right n _) (by decide)
  exact UInt32.toNat_ofNat_of_lt' hlt

theorem count_succ (n : Nat) :
    (if count n = 4294967295 then count n else count n + 1) = count (n + 1) := by
  have hn := toNat_count n
  apply UInt32.toNat_inj.1
  rw [toNat_count]
  split
  · rename_i last
    rw [last] at hn ⊢
    simp at hn ⊢
    omega
  · rename_i more
    have hne : (count n).toNat ≠ 4294967295 := fun h => more (UInt32.toNat_inj.1 h)
    rw [UInt32.toNat_add, hn]
    simp
    omega

theorem recordAll_start (rate : Rate) (frames : List Frame) :
    (start rate).recordAll frames = ⟨rate, count frames.length, Trace.arrivals rate frames⟩ := by
  induction frames using List.reverseRecOn with
  | nil => rfl
  | append_singleton frames frame ih =>
    rw [recordAll_append, ih, Trace.arrivals_concat, List.length_append, List.length_singleton,
      ← count_succ, ← toNat_count]
    rfl

end Recorder

end ControlVoltage

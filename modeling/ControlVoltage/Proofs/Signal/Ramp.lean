import ControlVoltage.Proofs.Signal.CurveTable
import ControlVoltage.Signal.Ramp
import ControlVoltage.Signal.Range

/-!
# Ramps in the output range

* `Range.Holds` : a number of the range.
* `Ramp.bounds` : the two voltages that a step keeps the ramp between.
* `Ramp.Within` : the voltages of the ramp are in the range.
* `Ramp.Safe` : what a step relies on.

A ramp stays within a range whose width is a finite number: then no difference of two voltages of
the range overflows.
-/

namespace ControlVoltage

open Single

/-! ## Ranges -/

namespace Range

/-- A number that is not outside the range. -/
def Holds (range : Range) (volts : Float32) : Prop :=
  volts.isNaN = false ∧ range.min ≤ volts ∧ volts ≤ range.max

variable {range : Range}

theorem min_lt_max (range : Range) : range.min < range.max := by
  have hmin := number_of_isFinite range.min_finite
  have hmax := number_of_isFinite range.max_finite
  have h := range.not_max_le_min
  rw [le_iff_of_number hmax hmin] at h
  exact (lt_iff_of_number hmin hmax).2 (not_le.1 h)

theorem holds_of_le {volts : Float32} (hmin : range.min ≤ volts) (hmax : volts ≤ range.max) :
    range.Holds volts :=
  ⟨(number_of_le hmin).2, hmin, hmax⟩

theorem holds_min (range : Range) : range.Holds range.min :=
  holds_of_le (le_refl_of_number (number_of_isFinite range.min_finite))
    (Single.le_of_lt range.min_lt_max)

theorem holds_max (range : Range) : range.Holds range.max :=
  holds_of_le (Single.le_of_lt range.min_lt_max)
    (le_refl_of_number (number_of_isFinite range.max_finite))

theorem Holds.isFinite {volts : Float32} (h : range.Holds volts) : volts.isFinite = true :=
  isFinite_of_le range.min_finite range.max_finite h.2.1 h.2.2

theorem holds_clamp (range : Range) (volts : Float32) : range.Holds (range.clamp volts) := by
  have hnumber : (if volts.isNaN then 0 else volts).isNaN = false := by
    split_ifs with h
    · rfl
    · exact Bool.eq_false_of_not_eq_true h
  obtain ⟨-, hminmin, hminmax⟩ := range.holds_min
  obtain ⟨-, -, hmaxmax⟩ := range.holds_max
  obtain ⟨hmin, hmax⟩ := clamp_mem hnumber hminmin hminmax hminmax hmaxmax
  exact holds_of_le hmin hmax

theorem clamp_of_holds {volts : Float32} (h : range.Holds volts) : range.clamp volts = volts := by
  unfold clamp
  rw [h.1, if_neg (by decide)]
  exact clamp_of_mem h.2.1 h.2.2

theorem isFinite_span (range : Range) :
    (range.min - range.max).isFinite = true ↔ (range.max - range.min).isFinite = true := by
  obtain ⟨hdown, hdowneq⟩ := exact_sub range.min_finite range.max_finite
  obtain ⟨hup, hupeq⟩ := exact_sub range.max_finite range.min_finite
  rw [isFinite_iff hdown, isFinite_iff hup, hdowneq, hupeq, ← neg_sub (exact range.max), fl_neg,
    abs_neg]

theorem isFinite_sub {x y : Float32} (hspan : (range.max - range.min).isFinite = true)
    (hx : range.Holds x) (hy : range.Holds y) : (x - y).isFinite = true :=
  Single.isFinite_sub range.min_finite range.max_finite range.min_finite range.max_finite hx.2 hy.2
    (range.isFinite_span.2 hspan) hspan

end Range

/-! ## Ramps -/

namespace Ramp

/-- The voltages that a step keeps the ramp between. -/
def bounds (ramp : Ramp) : Float32 × Float32 :=
  if ramp.start ≤ ramp.target then (ramp.start, ramp.target) else (ramp.target, ramp.start)

theorem between_eq (table : CurveTable) (ramp : Ramp) (left : UInt32) :
    ramp.between table left =
      Single.clamp ramp.bounds.1 ramp.bounds.2
        (ramp.start + (ramp.target - ramp.start) *
          table.eval ramp.curve ((ramp.total - left).toFloat32 / ramp.total.toFloat32)) := by
  unfold between bounds
  split_ifs <;> rfl

/-- The voltages of the ramp are in the range. -/
structure Within (range : Range) (ramp : Ramp) : Prop where
  current : range.Holds ramp.current
  start : range.Holds ramp.start
  target : range.Holds ramp.target

/-- What a step relies on: the voltages that it clamps between are in order, and so are the samples
that the table clamps between, and no more ticks remain than there are. -/
structure Safe (table : CurveTable) (ramp : Ramp) : Prop where
  ordered : ramp.bounds.1 ≤ ramp.bounds.2
  rising : table.Rising
  remaining : ramp.remaining ≤ ramp.total

theorem step_cases (table : CurveTable) (ramp : Ramp) :
    (ramp.phase = .ramping ∧ (ramp.step table).1 = .completed ramp.generation ∧
        (ramp.step table).2 =
          { ramp with current := ramp.target, remaining := 0, phase := .arrived }) ∨
      (ramp.phase = .ramping ∧ (ramp.step table).1 = .moving ∧ ramp.remaining - 1 ≠ 0 ∧
        ramp.remaining ≠ 0 ∧ (ramp.step table).2 =
          { ramp with
            current := ramp.between table (ramp.remaining - 1)
            remaining := ramp.remaining - 1 }) ∨
      (ramp.phase ≠ .ramping ∧ (ramp.step table).1 = .holding ∧
        (ramp.step table).2 = { ramp with phase := .idle }) := by
  obtain ⟨current, start, target, total, remaining, curve, phase, generation⟩ := ramp
  cases phase with
  | idle => exact Or.inr (Or.inr ⟨by simp, rfl, rfl⟩)
  | arrived => exact Or.inr (Or.inr ⟨by simp, rfl, rfl⟩)
  | ramping =>
    by_cases hzero : remaining = 0
    · refine Or.inl ⟨rfl, ?_⟩
      simp [step, hzero]
    · by_cases hlast : remaining - 1 = 0
      · refine Or.inl ⟨rfl, ?_⟩
        simp [step, hzero, hlast]
      · refine Or.inr (Or.inl ⟨rfl, ?_⟩)
        simp [step, hzero, hlast]

variable {range : Range} {table : CurveTable} {ramp : Ramp}

theorem Within.ordered (h : ramp.Within range) : ramp.bounds.1 ≤ ramp.bounds.2 := by
  unfold bounds
  split_ifs with hle
  · exact hle
  · exact le_of_not_le h.start.1 h.target.1 hle

theorem Within.between (h : ramp.Within range) (hspan : (range.max - range.min).isFinite = true)
    (hrising : table.Rising) (left : UInt32) : range.Holds (ramp.between table left) := by
  have hprogress := eval_mem hrising ramp.curve ((ramp.total - left).toFloat32 / ramp.total.toFloat32)
  have hdiff := Range.isFinite_sub hspan h.target h.start
  have hvolts := number_add h.start.isFinite (exact_mul hdiff (isFinite_of_unit hprogress)).1
  have hclamped : range.min ≤ ramp.between table left ∧ ramp.between table left ≤ range.max := by
    rw [between_eq]
    unfold bounds
    split_ifs
    · exact clamp_mem hvolts h.start.2.1 h.start.2.2 h.target.2.1 h.target.2.2
    · exact clamp_mem hvolts h.target.2.1 h.target.2.2 h.start.2.1 h.start.2.2
  exact Range.holds_of_le hclamped.1 hclamped.2

theorem current_step (table : CurveTable) (hphase : ramp.phase = .ramping)
    (hremaining : ramp.remaining ≠ 0) (hleft : ramp.remaining - 1 ≠ 0) :
    (ramp.step table).2.current = ramp.between table (ramp.remaining - 1) := by
  unfold Ramp.step
  rw [hphase]
  simp only [if_neg hremaining, if_neg hleft]

/-- Down a range that is too wide there is no number before the last sample. -/
theorem isNaN_step (hspan : (range.max - range.min).isFinite = false) (table : CurveTable)
    (hphase : ramp.phase = .ramping) (hstart : ramp.start = range.max)
    (htarget : ramp.target = range.min) (hcurve : ramp.curve = .wait)
    (htotal : ramp.total = 4294967295) (hremaining : ramp.remaining = 4294967295) :
    (ramp.step table).2.current.isNaN = true := by
  have hdown : (range.min - range.max).isFinite = false := by
    rw [Bool.eq_false_iff] at hspan ⊢
    exact fun h => hspan (range.isFinite_span.1 h)
  have heval : table.eval .wait ((4294967295 - (4294967295 - 1) : UInt32).toFloat32 /
      (4294967295 : UInt32).toFloat32) = 0 := by
    unfold CurveTable.eval
    exact if_neg (by decide)
  have hvolts : (range.max + (range.min - range.max) * 0).isNaN = true :=
    isNaN_add (isNaN_mul_zero (exact_sub range.min_finite range.max_finite).1 hdown)
  have hsome : ramp.remaining ≠ 0 ∧ ramp.remaining - 1 ≠ 0 := by
    rw [hremaining]
    decide
  rw [current_step table hphase hsome.1 hsome.2, between_eq, hstart, htarget, hcurve, htotal,
    hremaining, heval, clamp_of_isNaN hvolts]
  exact hvolts

theorem within_rest {volts : Float32} (h : range.Holds volts) : (rest volts).Within range :=
  ⟨h, h, h⟩

theorem Within.toward (h : ramp.Within range) {segment : Segment}
    (hsegment : range.Holds segment.target) : (ramp.toward segment).Within range := by
  refine ⟨?_, h.current, hsegment⟩
  unfold Ramp.toward
  simp only
  split_ifs
  · exact hsegment
  · exact h.current

theorem Within.hold (h : ramp.Within range) : ramp.hold.Within range :=
  ⟨h.current, h.current, h.current⟩

theorem Within.step (h : ramp.Within range) (hspan : (range.max - range.min).isFinite = true)
    (hrising : table.Rising) : (ramp.step table).2.Within range := by
  rcases step_cases table ramp with ⟨-, -, hstep⟩ | ⟨-, -, -, -, hstep⟩ | ⟨-, -, hstep⟩
  · rw [hstep]
    exact ⟨h.target, h.start, h.target⟩
  · rw [hstep]
    exact ⟨h.between hspan hrising _, h.start, h.target⟩
  · rw [hstep]
    exact ⟨h.current, h.start, h.target⟩

theorem remaining_le_step (h : ramp.remaining ≤ ramp.total) :
    (ramp.step table).2.remaining ≤ (ramp.step table).2.total := by
  rcases step_cases table ramp with ⟨-, -, hstep⟩ | ⟨-, -, -, hsome, hstep⟩ | ⟨-, -, hstep⟩
  · rw [hstep]
    exact UInt32.zero_le
  · rw [hstep]
    show ramp.remaining - 1 ≤ ramp.total
    have hone : (1 : UInt32) ≤ ramp.remaining := by
      rw [UInt32.le_iff_toNat_le]
      have : ramp.remaining.toNat ≠ 0 := fun hzero => hsome (UInt32.toNat_inj.1 hzero)
      show 1 ≤ ramp.remaining.toNat
      omega
    rw [UInt32.le_iff_toNat_le] at h ⊢
    rw [UInt32.toNat_sub_of_le _ _ hone]
    omega
  · rw [hstep]
    exact h

end Ramp

end ControlVoltage

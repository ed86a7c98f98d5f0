import ControlVoltage.Proofs.Signal.Progress
import ControlVoltage.Proofs.Voice.Timing

/-!
# Glides

From one sample to the next a ramp only moves toward its target, and never beyond it. This holds for
every curve, whatever the functions return that the curve is sampled from: the position in the segment
rises, so does the progress, and so does the voltage on a rising line.

* `Flight.Finite` : a flight whose ends, and the difference of the two, are finite.
* `Flight.Onward` : toward the target.
* `Flight.course` : where the flight starts, and its samples; `onward_succ`, from one to the next.
* `Ramp.course_iterate` : the voltages of a ramp that is stepped along.
* `Ramp.glides` : from start to target.
-/

namespace ControlVoltage

open Single

namespace Flight

variable {table : CurveTable} {f : Flight} {p q : Float32} {j k : Nat}

/-! ## Onward -/

/-- The two ends are finite, and so is the difference of the two. -/
structure Finite (f : Flight) : Prop where
  start : f.start.isFinite = true
  target : f.segment.target.isFinite = true
  width : (f.segment.target - f.start).isFinite = true

/-- To get from `x` to `y` is to move from the start toward the target, or not at all. -/
def Onward (f : Flight) (x y : Float32) : Prop :=
  if f.start ≤ f.segment.target then x ≤ y else y ≤ x

theorem Onward.trans {x y z : Float32} (hxy : f.Onward x y) (hyz : f.Onward y z) :
    f.Onward x z := by
  unfold Onward at *
  split_ifs at * with hup
  · exact le_trans_of_le hxy hyz
  · exact le_trans_of_le hyz hxy

theorem Onward.number {x y : Float32} (h : f.Onward x y) : x.isNaN = false ∧ y.isNaN = false := by
  unfold Onward at h
  split_ifs at h with hup
  · exact number_of_le h
  · exact (number_of_le h).symm

theorem onward_refl {x : Float32} (h : x.isNaN = false) : f.Onward x x := by
  unfold Onward
  split_ifs <;> exact le_refl_of_number h

/-! ## Voltages on the way -/

def voltsAt (f : Flight) (p : Float32) : Float32 :=
  Single.clamp f.ramp.bounds.1 f.ramp.bounds.2 (f.start + (f.segment.target - f.start) * p)

theorem bounds_ramp (f : Flight) :
    f.ramp.bounds = if f.start ≤ f.segment.target then (f.start, f.segment.target)
      else (f.segment.target, f.start) :=
  rfl

theorem Finite.le (h : f.Finite) (hdown : ¬ f.start ≤ f.segment.target) :
    f.segment.target ≤ f.start :=
  le_of_not_le (number_of_isFinite h.start) (number_of_isFinite h.target) hdown

theorem Finite.number_line (h : f.Finite) (hp : 0 ≤ p ∧ p ≤ 1) :
    (f.start + (f.segment.target - f.start) * p).isNaN = false :=
  number_add h.start (exact_mul h.width (isFinite_of_unit hp)).1

theorem Finite.onward_voltsAt (h : f.Finite) (hp : 0 ≤ p ∧ p ≤ 1) :
    f.Onward f.start (f.voltsAt p) ∧ f.Onward (f.voltsAt p) f.segment.target := by
  have hnumber := h.number_line hp
  have hstart := le_refl_of_number (number_of_isFinite h.start)
  have htarget := le_refl_of_number (number_of_isFinite h.target)
  unfold Onward voltsAt
  rw [bounds_ramp]
  split_ifs with hup
  · exact clamp_mem hnumber hstart hup hup htarget
  · exact (clamp_mem hnumber htarget (h.le hup) (h.le hup) hstart).symm

theorem Finite.onward_of_le (h : f.Finite) (hp : 0 ≤ p) (hpq : p ≤ q) (hq : q ≤ 1) :
    f.Onward (f.voltsAt p) (f.voltsAt q) := by
  have hpfinite := isFinite_of_unit ⟨hp, le_trans_of_le hpq hq⟩
  have hqfinite := isFinite_of_unit ⟨le_trans_of_le hp hpq, hq⟩
  have hle := exact_le hpq
  unfold Onward voltsAt
  rw [bounds_ramp]
  split_ifs with hup
  · have hwidth := exact_sub_nonneg h.target h.start hup
    exact clamp_le_clamp hup (Single.add_le_add_left h.start (Single.mul_le_mul h.width hpfinite
      h.width hqfinite (mul_le_mul_of_nonneg_left hle hwidth)))
  · have hwidth := exact_sub_nonpos h.target h.start (h.le hup)
    exact clamp_le_clamp (h.le hup) (Single.add_le_add_left h.start (Single.mul_le_mul h.width
      hqfinite h.width hpfinite (mul_le_mul_of_nonpos_left hle hwidth)))

/-! ## Samples -/

/-- The position of sample `j` in the segment. -/
def position (f : Flight) (j : Nat) : Float32 :=
  (f.segment.ticks - UInt32.ofNat (f.ticks - (j + 1))).toFloat32 / f.segment.ticks.toFloat32

theorem toNat_elapsed (hj : j < f.ticks) :
    (f.segment.ticks - UInt32.ofNat (f.ticks - (j + 1))).toNat = j + 1 := by
  have hticks : f.segment.ticks.toNat = f.ticks := rfl
  have hlt : f.ticks - (j + 1) < UInt32.size := (Nat.sub_le _ _).trans_lt f.segment.ticks.toNat_lt
  have hleft : (UInt32.ofNat (f.ticks - (j + 1))).toNat = f.ticks - (j + 1) :=
    UInt32.toNat_ofNat_of_lt' hlt
  rw [UInt32.toNat_sub_of_le _ _ (by rw [UInt32.le_iff_toNat_le, hleft]; omega), hleft]
  omega

theorem position_le (hjk : j ≤ k) (hk : k < f.ticks) : f.position j ≤ f.position k := by
  have hticks : f.segment.ticks ≠ 0 := by
    intro hzero
    rw [ticks, hzero] at hk
    exact absurd hk (Nat.not_lt_zero k)
  refine Single.div_le_div (isFinite_toFloat32 _) (isFinite_toFloat32 _) (isFinite_toFloat32 _)
    (exact_toFloat32_pos hticks) (toFloat32_le ?_)
  rw [UInt32.le_iff_toNat_le, toNat_elapsed hk, toNat_elapsed (hjk.trans_lt hk)]
  omega

theorem volts_eq (hj : j + 1 < f.ticks) :
    f.volts table j = f.voltsAt (table.eval f.segment.curve (f.position j)) := by
  rw [volts, if_pos hj, Ramp.between_eq]
  rfl

/-- Where the flight starts, and then the voltage of each sample. -/
def course (table : CurveTable) (f : Flight) : Nat → Float32
  | 0 => f.start
  | j + 1 => f.volts table j

theorem course_last (table : CurveTable) (hticks : 0 < f.ticks) :
    f.course table f.ticks = f.segment.target := by
  obtain ⟨n, hn⟩ := Nat.exists_eq_succ_of_ne_zero hticks.ne'
  rw [hn, course]
  exact volts_last table f hn.symm

/-- Every sample is onward from the one before it, and not beyond the target. -/
theorem Finite.onward_succ (h : f.Finite) (hrising : table.Rising) (hk : k < f.ticks) :
    f.Onward (f.course table k) (f.course table (k + 1)) := by
  have hmem := fun j => eval_mem hrising f.segment.curve (f.position j)
  -- The last sample is the target and has no progress of its own; the first is compared with the start.
  by_cases hlast : k + 1 < f.ticks
  · rw [course, volts_eq hlast]
    cases k with
    | zero => exact (h.onward_voltsAt (hmem 0)).1
    | succ k =>
      rw [course, volts_eq (Nat.lt_of_succ_lt hlast)]
      have hposition := position_le (Nat.le_succ k) (Nat.lt_of_succ_lt hlast)
      exact h.onward_of_le (hmem k).1 (eval_le_eval hrising _ hposition) (hmem (k + 1)).2
  · rw [course, volts_last table f (by omega)]
    cases k with
    | zero => exact (h.onward_voltsAt (hmem 0)).1.trans (h.onward_voltsAt (hmem 0)).2
    | succ k =>
      rw [course, volts_eq hk]
      exact (h.onward_voltsAt (hmem k)).2

theorem Finite.onward_course (h : f.Finite) (hrising : table.Rising) (hticks : 0 < f.ticks)
    (hjk : j ≤ k) (hk : k ≤ f.ticks) : f.Onward (f.course table j) (f.course table k) := by
  induction k, hjk using Nat.le_induction with
  | base =>
    rcases hk.lt_or_eq with hlt | rfl
    · exact onward_refl (h.onward_succ hrising hlt).number.1
    · rw [course_last table hticks]
      exact onward_refl (number_of_isFinite h.target)
  | succ k hjk ih => exact (ih (Nat.le_of_succ_le hk)).trans (h.onward_succ hrising hk)

end Flight

namespace Ramp

theorem Flies.iterate (table : CurveTable) {ramp : Ramp} {f : Flight} (h : ramp.Flies f 0) {k : Nat}
    (hk : k < f.ticks) : ((fun r => (r.step table).2)^[k] ramp).Flies f k := by
  induction k with
  | zero => exact h
  | succ k ih =>
    rw [Function.iterate_succ_apply']
    exact ((ih (Nat.lt_of_succ_lt hk)).step table hk).1

theorem course_iterate (table : CurveTable) (ramp : Ramp) {segment : Segment}
    (hticks : segment.ticks ≠ 0) {k : Nat} (hk : k ≤ segment.ticks.toNat) :
    ((fun r => (r.step table).2)^[k] (ramp.toward segment)).current =
      Flight.course table ⟨ramp.current, segment⟩ k := by
  have flies := Flies.launch ramp hticks
  cases k with
  | zero =>
    show (if segment.ticks = 0 then segment.target else ramp.current) = ramp.current
    rw [if_neg hticks]
  | succ k =>
    have hflies := flies.iterate table hk
    rw [Function.iterate_succ_apply', Flight.course]
    by_cases hlast : k + 1 < segment.ticks.toNat
    · exact (hflies.step table hlast).2.1
    · have hland : k + 1 = segment.ticks.toNat := by omega
      rw [(hflies.land table hland).1.current]
      exact (Flight.volts_last table ⟨ramp.current, segment⟩ hland).symm

/-- How a ramp gets to its target. From any ramp that is on a finite voltage, toward a finite target
with a finite difference between the two, in any number of ticks above zero, on any curve, and whatever
the functions return that the curves are sampled from: the voltage starts where it is, and with the
last tick is the target itself; in between it moves only toward the target, and never outside of the
two. -/
theorem glides (f : Transcendental) (ramp : Ramp) (segment : Segment)
    (hcurrent : ramp.current.isFinite = true) (htarget : segment.target.isFinite = true)
    (hwidth : (segment.target - ramp.current).isFinite = true) (hticks : segment.ticks ≠ 0) :
    let volts := fun k : Nat =>
      ((fun r => (r.step (CurveTable.build f)).2)^[k] (ramp.toward segment)).current
    volts 0 = ramp.current ∧ volts segment.ticks.toNat = segment.target ∧
      ∀ j k, j ≤ k → k ≤ segment.ticks.toNat →
        if ramp.current ≤ segment.target then
          ramp.current ≤ volts j ∧ volts j ≤ volts k ∧ volts k ≤ segment.target
        else segment.target ≤ volts k ∧ volts k ≤ volts j ∧ volts j ≤ ramp.current := by
  intro volts
  have hfinite : Flight.Finite ⟨ramp.current, segment⟩ := ⟨hcurrent, htarget, hwidth⟩
  have hrising := rising_build f
  have hpos : 0 < segment.ticks.toNat := Nat.pos_of_ne_zero fun h => hticks (UInt32.toNat_inj.1 h)
  have hvolts : ∀ k ≤ segment.ticks.toNat,
      volts k = Flight.course (CurveTable.build f) ⟨ramp.current, segment⟩ k :=
    fun k hk => course_iterate (CurveTable.build f) ramp hticks hk
  have honward : ∀ j k, j ≤ k → k ≤ segment.ticks.toNat →
      Flight.Onward ⟨ramp.current, segment⟩ (volts j) (volts k) := by
    intro j k hjk hk
    rw [hvolts j (hjk.trans hk), hvolts k hk]
    exact hfinite.onward_course hrising hpos hjk hk
  have hfirst : volts 0 = ramp.current := hvolts 0 hpos.le
  have hlast : volts segment.ticks.toNat = segment.target :=
    (hvolts _ le_rfl).trans (Flight.course_last _ hpos)
  refine ⟨hfirst, hlast, fun j k hjk hk => ?_⟩
  have hfrom := honward 0 j (Nat.zero_le j) (hjk.trans hk)
  have hbetween := honward j k hjk hk
  have hto := honward k _ hk le_rfl
  rw [hfirst] at hfrom
  rw [hlast] at hto
  unfold Flight.Onward at hfrom hbetween hto
  split_ifs at * with hup
  · exact ⟨hfrom, hbetween, hto⟩
  · exact ⟨hto, hbetween, hfrom⟩

/-- Down from five volts to minus five in four ticks, with the standard functions. -/
theorem glides_down :
    let volts := fun k : Nat => ((fun r => (r.step CurveTable.standard).2)^[k]
      ((rest 5).toward ⟨-5, 4, .exp⟩)).current
    volts 0 = 5 ∧ volts 4 = -5 ∧ -5 ≤ volts 2 ∧ volts 2 ≤ volts 1 ∧ volts 1 ≤ 5 := by
  intro volts
  obtain ⟨hfirst, hlast, hbetween⟩ := glides .standard (rest 5) ⟨-5, 4, .exp⟩ (by decide +kernel)
    (by decide +kernel) (by decide +kernel) (by decide)
  have hdown : ¬ (rest 5).current ≤ (⟨-5, 4, .exp⟩ : Segment).target := by decide +kernel
  have h := hbetween 1 2 (by decide) (by decide)
  rw [if_neg hdown] at h
  exact ⟨hfirst, hlast, h⟩

end Ramp

end ControlVoltage

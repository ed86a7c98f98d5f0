import ControlVoltage.Proofs.Single.Arithmetic
import ControlVoltage.Signal.CurveTable

/-!
# Progress

The samples of a curve rise from 0 to 1, whatever the functions return that they are taken from. So
the two samples that a progress is clamped between are in order, and every progress is a number
from 0 to 1, at every position.
-/

namespace ControlVoltage

open Single

/-! ## Constants -/

theorem zero_mem : (0 : Float32) ≤ 0 ∧ (0 : Float32) ≤ 1 := by decide

theorem one_mem : (0 : Float32) ≤ 1 ∧ (1 : Float32) ≤ 1 := by decide

theorem isFinite_counts :
    ((0 : Float32).isFinite = true ∧ (255 : Float32).isFinite = true ∧
      (256 : Float32).isFinite = true ∧ (0 : Float32) ≤ 256) ∧
      ((0 : Float32) - 1).isFinite = true ∧ ((1 : Float32) - 0).isFinite = true ∧
      ((0 : Float32) - 255).isFinite = true ∧ ((256 : Float32) - 0).isFinite = true := by
  decide

/-! ## Samples -/

/-- The samples never decrease and are not outside 0 and 1. -/
structure Samples.Rising (samples : Samples) : Prop where
  mem : ∀ i, 0 ≤ samples.points.get i ∧ samples.points.get i ≤ 1
  ordered : ∀ (i : Nat) (h : i + 1 < 257),
    samples.points.get ⟨i, by omega⟩ ≤ samples.points.get ⟨i + 1, h⟩

theorem le_larger {peak : Float32} (h : peak.isNaN = false) (x : Float32) : peak ≤ larger peak x := by
  unfold larger
  split_ifs with hlt
  · exact Single.le_of_lt hlt
  · exact le_refl_of_number h

theorem larger_le {peak x : Float32} (hpeak : peak ≤ 1) (hx : x.isNaN = false → x ≤ 1) :
    larger peak x ≤ 1 := by
  unfold larger
  split_ifs with hlt
  · exact hx (number_of_le (Single.le_of_lt hlt)).2
  · exact hpeak

/-- The running maximum rises from the first peak to 1; a sample that is no number leaves no trace
in it. -/
theorem runningMax_rises {peak : Float32} {xs : List Float32} (hpeak : peak ≤ 1)
    (hxs : ∀ x ∈ xs, x.isNaN = false → x ≤ 1) (i : Nat) :
    peak ≤ (runningMax peak xs).getD i 1 ∧ (runningMax peak xs).getD i 1 ≤ 1 ∧
      (runningMax peak xs).getD i 1 ≤ (runningMax peak xs).getD (i + 1) 1 := by
  induction xs generalizing peak i with
  | nil => exact ⟨hpeak, one_mem.2, one_mem.2⟩
  | cons x xs ih =>
    obtain ⟨hx, htail⟩ := List.forall_mem_cons.1 hxs
    have hle := le_larger (number_of_le hpeak).1 x
    have hone := larger_le hpeak hx
    rw [runningMax]
    cases i with
    | zero =>
      obtain ⟨hnext, -, -⟩ := ih hone htail 0
      exact ⟨hle, hone, hnext⟩
    | succ i =>
      obtain ⟨hfrom, hto, hnext⟩ := ih hone htail i
      exact ⟨le_trans_of_le hle hfrom, hto, hnext⟩

theorem clampedAt_le (f : Transcendental) (curve : Curve) (i : Nat)
    (h : (Samples.clampedAt f curve i).isNaN = false) : Samples.clampedAt f curve i ≤ 1 := by
  unfold Samples.clampedAt at h ⊢
  cases hx : (curve.exact f (Single.ofNat i / 256)).isNaN with
  | true =>
    rw [clamp_of_isNaN hx, hx] at h
    cases h
  | false => exact (clamp_mem hx zero_mem.1 zero_mem.2 one_mem.1 one_mem.2).2

theorem points_ofCurve (f : Transcendental) (curve : Curve) (i : Fin 257) :
    (Samples.ofCurve f curve).points.get i =
      if i.val = 0 then 0 else if i.val = 256 then 1
      else (runningMax 0 ((List.range 257).map (Samples.clampedAt f curve))).getD i 1 := by
  show (Samples.ofCurve f curve).points[i.val] = _
  simp [Samples.ofCurve]

theorem rising_ofCurve (f : Transcendental) (curve : Curve) : (Samples.ofCurve f curve).Rising := by
  have hle : ∀ x ∈ (List.range 257).map (Samples.clampedAt f curve), x.isNaN = false → x ≤ 1 := by
    intro x hx
    obtain ⟨i, -, rfl⟩ := List.mem_map.1 hx
    exact clampedAt_le f curve i
  have hrises := runningMax_rises zero_mem.2 hle
  refine ⟨fun i => ?_, fun i hi => ?_⟩
  · rw [points_ofCurve]
    split_ifs
    · exact zero_mem
    · exact one_mem
    · obtain ⟨hfrom, hto, -⟩ := hrises i
      exact ⟨hfrom, hto⟩
  · obtain ⟨-, hto, hnext⟩ := hrises i
    obtain ⟨hfrom, -, -⟩ := hrises (i + 1)
    rw [points_ofCurve, points_ofCurve]
    simp only
    by_cases hfirst : i = 0
    · subst hfirst
      exact hfrom
    · by_cases hlast : i + 1 = 256
      · rw [if_neg hfirst, if_neg (by omega), if_neg (by omega), if_pos hlast]
        exact hto
      · rw [if_neg hfirst, if_neg (by omega), if_neg (by omega), if_neg hlast]
        exact hnext

/-! ## Progress -/

theorem ofNat_mem (i : Nat) (h : i < 256) :
    0 ≤ Single.ofNat i ∧ Single.ofNat i ≤ 255 := by
  have hends : (0 : UInt32).toFloat32 = 0 ∧ (255 : UInt32).toFloat32 = 255 := by decide
  have hcount : i.toUInt32.toNat = i := UInt32.toNat_ofNat_of_lt' (h.trans (by decide))
  have hmost : i.toUInt32 ≤ 255 := UInt32.le_iff_toNat_le.2 (hcount.trans_le (Nat.le_of_lt_succ h))
  rw [← hends.1, ← hends.2]
  exact ⟨toFloat32_le UInt32.zero_le, toFloat32_le hmost⟩

theorem position_le {t u : Float32} (ht : 0 ≤ t) (htu : t ≤ u) (hu : u ≤ 1) :
    t * 256 ≤ u * 256 := by
  obtain ⟨⟨-, -, hfinite, hpos⟩, -⟩ := isFinite_counts
  have htfinite := isFinite_of_unit ⟨ht, le_trans_of_le htu hu⟩
  have hufinite := isFinite_of_unit ⟨le_trans_of_le ht htu, hu⟩
  exact Single.mul_le_mul_right htfinite hufinite hfinite htu hpos

theorem position_mem {t : Float32} (ht : 0 ≤ t ∧ t ≤ 1) : 0 ≤ t * 256 ∧ t * 256 ≤ 256 := by
  have hends : (0 : Float32) * 256 = 0 ∧ (1 : Float32) * 256 = 256 := by decide +kernel
  have hlow := position_le zero_mem.1 ht.1 ht.2
  have hhigh := position_le ht.1 ht.2 one_mem.2
  rw [hends.1] at hlow
  rw [hends.2] at hhigh
  exact ⟨hlow, hhigh⟩

theorem isFinite_fraction {t : Float32} (ht : 0 ≤ t ∧ t ≤ 1) {i : Nat} (hi : i < 256) :
    (t * 256 - Single.ofNat i).isFinite = true := by
  obtain ⟨⟨hzero, hcount, hposition, -⟩, -, -, hleast, hmost⟩ := isFinite_counts
  exact isFinite_sub hzero hposition hzero hcount (position_mem ht) (ofNat_mem i hi) hleast hmost

theorem fraction_le {t u : Float32} (ht : 0 ≤ t) (htu : t ≤ u) (hu : u ≤ 1) {i : Nat}
    (hi : i < 256) : t * 256 - Single.ofNat i ≤ u * 256 - Single.ofNat i := by
  obtain ⟨⟨hzero, hcount, hposition, -⟩, -⟩ := isFinite_counts
  have hfrom := position_mem ⟨ht, le_trans_of_le htu hu⟩
  have hto := position_mem ⟨le_trans_of_le ht htu, hu⟩
  have hindex := ofNat_mem i hi
  have hfinite := isFinite_of_le hzero hcount hindex.1 hindex.2
  exact Single.sub_le_sub (isFinite_of_le hzero hposition hfrom.1 hfrom.2)
    (isFinite_of_le hzero hposition hto.1 hto.2) hfinite hfinite (position_le ht htu hu)
    (le_refl_of_number (number_of_isFinite hfinite))

theorem isFinite_rise {a b : Float32} (ha : 0 ≤ a ∧ a ≤ 1) (hb : 0 ≤ b ∧ b ≤ 1) :
    (b - a).isFinite = true := by
  have hzero := isFinite_of_unit zero_mem
  have hone := isFinite_of_unit one_mem
  obtain ⟨-, hleast, hmost, -⟩ := isFinite_counts
  exact isFinite_sub hzero hone hzero hone hb ha hleast hmost

theorem number_line {a b t : Float32} {i : Nat} (ha : 0 ≤ a ∧ a ≤ 1) (hb : 0 ≤ b ∧ b ≤ 1)
    (ht : 0 ≤ t ∧ t ≤ 1) (hi : i < 256) :
    (a + (b - a) * (t * 256 - Single.ofNat i)).isNaN = false :=
  number_add (isFinite_of_unit ha) (exact_mul (isFinite_rise ha hb) (isFinite_fraction ht hi)).1

theorem progress_mem {samples : Samples} (h : samples.Rising) {t : Float32} (ht : 0 ≤ t ∧ t ≤ 1) :
    0 ≤ samples.progress t ∧ samples.progress t ≤ 1 := by
  unfold Samples.progress
  split_ifs with hone
  · exact one_mem
  · have ha := h.mem ⟨min (t * 256).toUInt32.toNat 255, by omega⟩
    have hb := h.mem ⟨min (t * 256).toUInt32.toNat 255 + 1, by omega⟩
    exact clamp_mem (number_line ha hb ht (by omega)) ha.1 ha.2 hb.1 hb.2

/-! ## Tables -/

structure CurveTable.Rising (table : CurveTable) : Prop where
  sine : table.sine.Rising
  log : table.log.Rising
  exp : table.exp.Rising

theorem rising_build (f : Transcendental) : (CurveTable.build f).Rising :=
  ⟨rising_ofCurve f .sine, rising_ofCurve f .log, rising_ofCurve f .exp⟩

theorem eval_mem {table : CurveTable} (h : table.Rising) (curve : Curve) (t : Float32) :
    0 ≤ table.eval curve t ∧ table.eval curve t ≤ 1 := by
  obtain ⟨u, hu, heq⟩ : ∃ u, (0 ≤ u ∧ u ≤ 1) ∧ u = if t.isNaN then 0 else Single.clamp 0 1 t := by
    refine ⟨_, ?_, rfl⟩
    cases ht : t.isNaN with
    | true => exact zero_mem
    | false => exact clamp_mem ht zero_mem.1 zero_mem.2 one_mem.1 one_mem.2
  unfold CurveTable.eval
  rw [← heq]
  cases curve with
  | linear => exact hu
  | sine => exact progress_mem h.sine hu
  | log => exact progress_mem h.log hu
  | exp => exact progress_mem h.exp hu
  | now =>
    simp only
    split_ifs
    · exact one_mem
    · exact zero_mem
  | wait =>
    simp only
    split_ifs
    · exact one_mem
    · exact zero_mem

end ControlVoltage

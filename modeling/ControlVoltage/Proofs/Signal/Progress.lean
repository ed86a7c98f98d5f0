import ControlVoltage.Proofs.Signal.CurveTable
import ControlVoltage.Proofs.Single.Division

/-!
# Progress never goes back

Along a segment the progress of every curve rises, whatever the functions return that its samples are
taken from: between two samples the line rises, and the bounds that it is kept between rise from one
pair of samples to the next.

* `Samples.Rising.get_le` : later samples are not lower.
* `progress_le_progress` : along the samples of a curve.
* `eval_le_eval` : along any curve.
-/

namespace ControlVoltage

open Single

/-! ## Samples -/

theorem Samples.Rising.get_le {samples : Samples} (h : samples.Rising) {i j : Nat} (hij : i ≤ j)
    (hj : j < 257) : samples.points.get ⟨i, by omega⟩ ≤ samples.points.get ⟨j, hj⟩ := by
  induction j, hij using Nat.le_induction with
  | base => exact le_refl_of_number (number_of_le (h.mem ⟨i, by omega⟩).1).2
  | succ j hij ih => exact le_trans_of_le (ih (by omega)) (h.ordered j hj)

def Samples.pair (t : Float32) : Nat := min (t * 256).toUInt32.toNat 255

theorem Samples.pair_lt (t : Float32) : pair t < 256 := by
  unfold pair
  omega

theorem Samples.pair_le {t u : Float32} (ht : 0 ≤ t) (htu : t ≤ u) (hu : u ≤ 1) :
    pair t ≤ pair u := by
  have hle := position_le ht htu hu
  have hlow := (position_mem ⟨ht, le_trans_of_le htu hu⟩).1
  have hfloor := Nat.floor_mono (exact_le hle)
  unfold pair
  rw [toNat_toUInt32 hlow, toNat_toUInt32 (le_trans_of_le hlow hle)]
  omega

/-- The progress at a position between two samples. -/
def Samples.onLine (samples : Samples) (i : Nat) (h : i < 256) (t : Float32) : Float32 :=
  let a := samples.points.get ⟨i, by omega⟩
  let b := samples.points.get ⟨i + 1, by omega⟩
  Single.clamp a b (a + (b - a) * (t * 256 - Single.ofNat i))

theorem Samples.progress_eq (samples : Samples) {t : Float32} (h : ¬ 1 ≤ t) :
    samples.progress t = samples.onLine (pair t) (pair_lt t) t :=
  if_neg h

variable {samples : Samples}

theorem Samples.Rising.onLine_mem (h : samples.Rising) {i : Nat} (hi : i < 256) {t : Float32}
    (ht : 0 ≤ t ∧ t ≤ 1) :
    samples.points.get ⟨i, by omega⟩ ≤ samples.onLine i hi t ∧
      samples.onLine i hi t ≤ samples.points.get ⟨i + 1, by omega⟩ := by
  have ha := h.mem ⟨i, by omega⟩
  have hb := h.mem ⟨i + 1, by omega⟩
  exact clamp_mem (number_line ha hb ht hi) (le_refl_of_number (number_of_le ha.1).2)
    (h.ordered i (by omega)) (h.ordered i (by omega)) (le_refl_of_number (number_of_le hb.1).2)

theorem Samples.Rising.onLine_le (h : samples.Rising) {i : Nat} (hi : i < 256) {t u : Float32}
    (ht : 0 ≤ t) (htu : t ≤ u) (hu : u ≤ 1) : samples.onLine i hi t ≤ samples.onLine i hi u := by
  have ha := h.mem ⟨i, by omega⟩
  have hb := h.mem ⟨i + 1, by omega⟩
  have hle := h.ordered i (by omega)
  have hfraction := fraction_le ht htu hu hi
  have hfrom := isFinite_fraction ⟨ht, le_trans_of_le htu hu⟩ hi
  have hto := isFinite_fraction ⟨le_trans_of_le ht htu, hu⟩ hi
  unfold Samples.onLine
  simp only
  generalize samples.points.get ⟨i, _⟩ = a at ha hle ⊢
  generalize samples.points.get ⟨i + 1, _⟩ = b at hb hle ⊢
  have hafinite := isFinite_of_unit ha
  have hbfinite := isFinite_of_unit hb
  have hrise := isFinite_rise ha hb
  have hproduct : (b - a) * (t * 256 - Single.ofNat i) ≤ (b - a) * (u * 256 - Single.ofNat i) :=
    Single.mul_le_mul hrise hfrom hrise hto
      (mul_le_mul_of_nonneg_left (exact_le hfraction) (exact_sub_nonneg hbfinite hafinite hle))
  exact clamp_le_clamp hle (Single.add_le_add_left hafinite hproduct)

theorem progress_le_progress (h : samples.Rising) {t u : Float32} (ht : 0 ≤ t) (htu : t ≤ u)
    (hu : u ≤ 1) : samples.progress t ≤ samples.progress u := by
  by_cases hend : 1 ≤ u
  · have hone : samples.progress u = 1 := if_pos hend
    rw [hone]
    exact (progress_mem h ⟨ht, le_trans_of_le htu hu⟩).2
  · have hbefore : ¬ 1 ≤ t := fun hle => hend (le_trans_of_le hle htu)
    rw [samples.progress_eq hend, samples.progress_eq hbefore]
    have hfrom := h.onLine_mem (Samples.pair_lt t) ⟨ht, le_trans_of_le htu hu⟩
    have hto := h.onLine_mem (Samples.pair_lt u) ⟨le_trans_of_le ht htu, hu⟩
    have hpair := Samples.pair_lt u
    rcases (Samples.pair_le ht htu hu).lt_or_eq with hlt | heq
    · -- The upper sample of the one pair is not above the lower sample of the other.
      exact le_trans_of_le hfrom.2 (le_trans_of_le (h.get_le hlt (by omega)) hto.1)
    · simp only [heq]
      exact h.onLine_le (Samples.pair_lt u) ht htu hu

/-! ## Curves -/

/-- The progress of a curve rises from one position to any later one. -/
theorem eval_le_eval {table : CurveTable} (h : table.Rising) (curve : Curve) {t u : Float32}
    (htu : t ≤ u) : table.eval curve t ≤ table.eval curve u := by
  obtain ⟨ht, hu⟩ := number_of_le htu
  have hends : (0 : Float32) ≤ 0 ∧ (0 : Float32) ≤ 1 ∧ (1 : Float32) ≤ 1 := by decide
  have hclamped := clamp_le_clamp hends.2.1 htu
  have hfrom := (clamp_mem ht hends.1 hends.2.1 hends.2.1 hends.2.2).1
  have hto := (clamp_mem hu hends.1 hends.2.1 hends.2.1 hends.2.2).2
  unfold CurveTable.eval
  rw [ht, hu, if_neg Bool.false_ne_true, if_neg Bool.false_ne_true]
  generalize Single.clamp 0 1 t = t' at hclamped hfrom
  generalize Single.clamp 0 1 u = u' at hclamped hto
  cases curve with
  | linear => exact hclamped
  | sine => exact progress_le_progress h.sine hfrom hclamped hto
  | log => exact progress_le_progress h.log hfrom hclamped hto
  | exp => exact progress_le_progress h.exp hfrom hclamped hto
  | now =>
    simp only
    split_ifs with hbefore hafter
    · exact hends.2.2
    · have hzero := le_of_not_lt rfl (number_of_le hclamped).2 hafter
      exact absurd hbefore (not_lt_of_le (le_trans_of_le hclamped hzero))
    · exact hends.2.1
    · exact hends.1
  | wait =>
    simp only
    split_ifs with hbefore hafter
    · exact hends.2.2
    · exact absurd (le_trans_of_le hbefore hclamped) hafter
    · exact hends.2.1
    · exact hends.1

end ControlVoltage

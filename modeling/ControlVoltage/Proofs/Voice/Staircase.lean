import ControlVoltage.Proofs.Signal.Quantizer
import ControlVoltage.Proofs.Voice.Glide

/-!
# Glides on a quantized channel

A glide on a quantized channel goes up or down in steps, and in one direction only: the quantizer keeps
the order of the voltages, and so does the range that the result is brought into.

* `Quantizer.InOctave` : a scale whose degrees are within its octave.
* `Quantizer.staircase` : no sample of a glide goes back behind an earlier one.
-/

namespace ControlVoltage

open Single

/-! ## Order -/

theorem Range.clamp_le_clamp (range : Range) {x y : Float32} (hxy : x ≤ y) :
    range.clamp x ≤ range.clamp y := by
  obtain ⟨hx, hy⟩ := number_of_le hxy
  unfold clamp
  rw [hx, hy, if_neg Bool.false_ne_true, if_neg Bool.false_ne_true]
  exact Single.clamp_le_clamp (Single.le_of_lt range.min_lt_max) hxy

namespace Quantizer

/-- All semitones of an octave, or a scale from settings all of whose degrees are within the octave. -/
def InOctave (quantizer : Quantizer) : Prop :=
  quantizer = .chromatic ∨ ∃ degrees modulo scaling,
    Quantizer.ofDegrees degrees modulo scaling = .ok quantizer ∧
      ∀ d ∈ quantizer.degrees, 0 ≤ d ∧ d ≤ quantizer.modulo

variable {quantizer : Quantizer}

theorem InOctave.exists_scale (h : quantizer.InOctave) :
    ∃ scale : Scale, scale.InOctave ∧ quantizer = .on scale := by
  rcases h with rfl | ⟨degrees, modulo, scaling, hscale, hwithin⟩
  · exact ⟨.chromatic, Scale.inOctave_chromatic, rfl⟩
  · unfold ofDegrees at hscale
    cases hdegrees : Scale.ofDegrees degrees modulo scaling with
    | error error =>
      rw [hdegrees] at hscale
      cases hscale
    | ok scale =>
      rw [hdegrees] at hscale
      cases hscale
      exact ⟨scale, Scale.inOctave_of_ofDegrees hdegrees hwithin, rfl⟩

theorem InOctave.quantize_le_quantize (h : quantizer.InOctave) {v w : Float32}
    (hv : v.isFinite = true) (hw : w.isFinite = true) (hvw : v ≤ w) :
    quantizer.quantize v ≤ quantizer.quantize w := by
  obtain ⟨scale, hscale, rfl⟩ := h.exists_scale
  exact hscale.snap_le_snap hv hw hvw

end Quantizer

/-! ## Samples of a glide -/

namespace Voice

def sampled (rig : Rig) (v : Voice) (k : Nat) : Voice := (fun w => w.after rig .sample)^[k] v

theorem sampled_ramp (rig : Rig) (v : Voice) (k : Nat) :
    (v.sampled rig k).ramp = (fun r => (r.step rig.table).2)^[k] v.ramp ∧
      (v.sampled rig k).quantizer = v.quantizer := by
  induction k with
  | zero => exact ⟨rfl, rfl⟩
  | succ k ih =>
    unfold sampled at *
    rw [Function.iterate_succ_apply', Function.iterate_succ_apply', ← ih.1]
    exact ⟨rfl, ih.2⟩

theorem written_sampled (rig : Rig) (v : Voice) (k : Nat) :
    (v.sampled rig (k + 1)).written = rig.range.clamp (v.quantizer.quantize
      ((fun r => (r.step rig.table).2)^[k + 1] v.ramp).current) := by
  obtain ⟨hramp, hquantizer⟩ := sampled_ramp rig v k
  unfold sampled at *
  rw [Function.iterate_succ_apply', Function.iterate_succ_apply', written_sample, hramp, hquantizer]

end Voice

/-- Quantizing keeps the order of voltages, for every scale that is accepted with all of its degrees
within the octave, and for the semitones. So a glide, which moves in one direction only, is written in
steps of that one direction: on any voice with such a scale, toward any finite target with a finite
difference from where the ramp is, in any number of ticks above zero, on any curve, and whatever the
output range. -/
theorem Quantizer.staircase (quantizer : Quantizer) (hquantizer : quantizer.InOctave) :
    (∀ v w : Float32, v.isFinite = true → w.isFinite = true → v ≤ w →
      quantizer.quantize v ≤ quantizer.quantize w) ∧
    ∀ (f : Transcendental) (rig : Rig) (v : Voice) (ramp : Ramp) (segment : Segment),
      rig.table = .build f → v.quantizer = quantizer → v.ramp = ramp.toward segment →
      ramp.current.isFinite = true → segment.target.isFinite = true →
      (segment.target - ramp.current).isFinite = true → segment.ticks ≠ 0 →
      ∀ j k, 0 < j → j ≤ k → k ≤ segment.ticks.toNat →
        if ramp.current ≤ segment.target then
          (v.sampled rig j).written ≤ (v.sampled rig k).written
        else (v.sampled rig k).written ≤ (v.sampled rig j).written := by
  refine ⟨fun v w hv hw hvw => hquantizer.quantize_le_quantize hv hw hvw, ?_⟩
  intro f rig v ramp segment htable hvquantizer hramp hcurrent htarget hwidth hticks j k hj hjk hk
  obtain ⟨-, -, hbetween⟩ := ramp.glides f segment hcurrent htarget hwidth hticks
  obtain ⟨j, rfl⟩ := Nat.exists_eq_succ_of_ne_zero hj.ne'
  obtain ⟨k, rfl⟩ := Nat.exists_eq_succ_of_ne_zero (hj.trans_le hjk).ne'
  have h := hbetween (j + 1) (k + 1) hjk hk
  rw [v.written_sampled, v.written_sampled, hvquantizer, hramp, htable]
  -- All voltages of the glide are between its two finite ends.
  split_ifs at h ⊢ with hup
  · obtain ⟨hfrom, hrise, hto⟩ := h
    have hlow := isFinite_of_le hcurrent htarget hfrom (le_trans_of_le hrise hto)
    have hhigh := isFinite_of_le hcurrent htarget (le_trans_of_le hfrom hrise) hto
    exact rig.range.clamp_le_clamp (hquantizer.quantize_le_quantize hlow hhigh hrise)
  · obtain ⟨hfrom, hfall, hto⟩ := h
    have hlow := isFinite_of_le htarget hcurrent hfrom (le_trans_of_le hfall hto)
    have hhigh := isFinite_of_le htarget hcurrent (le_trans_of_le hfrom hfall) hto
    exact rig.range.clamp_le_clamp (hquantizer.quantize_le_quantize hlow hhigh hfall)

/-- A minor triad, from below zero and across octaves: two voltages, and two samples of a glide of two
volts in four ticks. -/
theorem Quantizer.staircase_triad :
    let triad : Quantizer := .on ⟨#[0, 3, 7], 12, 1, by decide⟩
    let rig : Rig := ⟨.standard, .standard, .standard⟩
    let v : Voice := { Voice.rest (-0.25) with
      quantizer := triad, ramp := (Ramp.rest (-0.25)).toward ⟨1.75, 4, .linear⟩ }
    triad.quantize (-0.25) ≤ triad.quantize 1.5 ∧
      (v.sampled rig 1).written ≤ (v.sampled rig 3).written := by
  intro triad rig v
  have haccepted : Quantizer.ofDegrees #[0, 3, 7] none none = .ok triad := by
    unfold ofDegrees Scale.ofDegrees
    simp only
    rw [dif_neg (by decide), if_neg (by decide), if_neg (by decide +kernel),
      if_neg (by decide +kernel), if_neg (by decide +kernel)]
    rfl
  have hwithin : (#[0, 3, 7] : Array Float32).all (fun d => decide (0 ≤ d ∧ d ≤ 12)) = true := by
    decide +kernel
  have hoctave : triad.InOctave := .inr ⟨_, none, none, haccepted, fun d hd =>
    of_decide_eq_true (Array.all_eq_true_iff_forall_mem.1 hwithin d hd)⟩
  obtain ⟨hvolts, hglide⟩ := triad.staircase hoctave
  refine ⟨hvolts (-0.25) 1.5 (by decide +kernel) (by decide +kernel) (by decide +kernel), ?_⟩
  have h := hglide .standard rig v (.rest (-0.25)) ⟨1.75, 4, .linear⟩ rfl rfl rfl
    (by decide +kernel) (by decide +kernel) (by decide +kernel) (by decide) 1 3 (by decide)
    (by decide) (by decide)
  rwa [if_pos (by decide +kernel)] at h

end ControlVoltage

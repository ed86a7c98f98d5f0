import ControlVoltage.Proofs.Signal.Progress
import ControlVoltage.Proofs.Single.Exactness

/-!
# Curves from end to end

Every curve goes from exactly 0 to exactly 1, and never back on the way, whatever the functions return that
its samples are taken from.

* `exact_clamp_unit` : positions outside of 0 and 1 count as the ends.
* `CurveTable.eval_now`, `eval_wait` : the two curves that jump.
* `Samples.pair_eq` : the samples around a position, which are always there.
* `eval_start`, `eval_end` : the two ends of any curve.
* `CurveTable.rises_from_zero_to_one` : any curve, at all positions.
-/

namespace ControlVoltage

open Single

variable {t : Float32}

/-! ## Positions -/

theorem exact_clamp_unit (h : t.isNaN = false) :
    (Single.clamp 0 1 t).isNaN = false ∧ exact (Single.clamp 0 1 t) = max 0 (min 1 (exact t)) := by
  have hunit : (0 : Float32) ≤ 1 := by decide +kernel
  have hzero := le_refl_of_number (x := 0) rfl
  have hone := le_refl_of_number (x := 1) rfl
  refine ⟨(number_of_le (clamp_mem h hzero hunit hunit hone).1).2, ?_⟩
  rw [exact_clamp h hunit, exact_zero, exact_one]

theorem exists_parts (ht : 0 ≤ t ∧ t ≤ 1) (hpos : 0 < exact t) :
    ∃ (m : ℕ) (e : ℤ), exact t = m * 2 ^ e ∧ m < 2 ^ 24 ∧ -149 ≤ e ∧ e ≤ 0 := by
  obtain ⟨m, e, heq, hm, hleast, -⟩ := exists_scaled (isFinite_of_unit ht) hpos
  refine ⟨m, e, heq, hm, hleast, ?_⟩
  by_contra hlarge
  have hdigit : (1 : ℚ) ≤ m := by
    have hne : m ≠ 0 := by
      rintro rfl
      rw [Nat.cast_zero, zero_mul] at heq
      exact hpos.ne' heq
    exact_mod_cast Nat.one_le_iff_ne_zero.2 hne
  have hpower : (2 : ℚ) ^ (1 : ℤ) ≤ 2 ^ e := zpow_two_le (by omega)
  have hproduct := mul_le_mul hdigit hpower (by norm_num) (by linarith)
  have hone := exact_le ht.2
  rw [heq, exact_one] at hone
  norm_num at hproduct
  linarith

theorem exact_position (ht : 0 ≤ t ∧ t ≤ 1) : exact (t * 256) = exact t * 256 := by
  have hparts : (256 : Float32).isFinite = true ∧ exact 256 = 2 ^ (8 : ℤ) := by
    have hunpack : (256 : Float32).toModel.unpack = .finite .positive 8388608 (-15) (by decide) := rfl
    refine ⟨by decide, ?_⟩
    rw [exact, hunpack]
    norm_num [value, signum]
  have hscale : exact (t * 256) = fl (exact t * 2 ^ (8 : ℤ)) := by
    rw [(exact_mul (isFinite_of_unit ht) hparts.1).2, hparts.2]
  rw [hscale]
  rcases (exact_nonneg ht.1).eq_or_lt with hzero | hpos
  · rw [← hzero, zero_mul, zero_mul, fl_zero]
  · obtain ⟨m, e, heq, hm, hleast, hmost⟩ := exists_parts ht hpos
    have hsum : (m : ℚ) * 2 ^ e * 2 ^ (8 : ℤ) = m * 2 ^ (e + 8) := by
      rw [mul_assoc, ← zpow_add₀ (by norm_num)]
    rw [heq, hsum, fl_scaled hm (by omega) (by omega), ← hsum]
    norm_num

theorem Samples.pair_eq (hlow : 0 ≤ t) (hbefore : ¬ 1 ≤ t) : pair t = ⌊exact t * 256⌋₊ := by
  have hnumber := (number_of_le hlow).2
  have hhigh := le_of_not_le rfl hnumber hbefore
  have hposition := (position_mem ⟨hlow, hhigh⟩).1
  rw [le_iff_of_number rfl hnumber, exact_one, not_le] at hbefore
  have hfloor : ⌊exact t * 256⌋₊ < 256 := by
    rw [Nat.floor_lt (by linarith [exact_nonneg hlow])]
    norm_num
    linarith
  rw [pair, toNat_toUInt32 hposition, exact_position ⟨hlow, hhigh⟩]
  omega

/-! ## Curves that jump -/

theorem CurveTable.eval_now (table : CurveTable) (h : 0 < t) : table.eval .now t = 1 := by
  have hnumber := (number_of_le (Single.le_of_lt h)).2
  obtain ⟨hclamped, hexact⟩ := exact_clamp_unit hnumber
  rw [lt_iff_of_number rfl hnumber, exact_zero] at h
  have hkept : 0 < Single.clamp 0 1 t := by
    rw [lt_iff_of_number rfl hclamped, exact_zero, hexact]
    exact lt_max_of_lt_right (lt_min one_pos h)
  unfold CurveTable.eval
  rw [hnumber, if_neg Bool.false_ne_true]
  exact if_pos hkept

theorem CurveTable.eval_wait (table : CurveTable) (h : t.isNaN = false) :
    table.eval .wait t = if 1 ≤ t then 1 else 0 := by
  obtain ⟨hclamped, hexact⟩ := exact_clamp_unit h
  have hkept : 1 ≤ Single.clamp 0 1 t ↔ 1 ≤ t := by
    rw [le_iff_of_number rfl hclamped, le_iff_of_number rfl h, hexact, exact_one, le_max_iff,
      le_min_iff]
    norm_num
  unfold CurveTable.eval
  rw [h, if_neg Bool.false_ne_true]
  simp only [hkept]

/-! ## The ends -/

theorem Samples.first_ofCurve (f : Transcendental) (curve : Curve) :
    (ofCurve f curve).points.get 0 = 0 := by
  rw [points_ofCurve]
  rfl

theorem Samples.last_ofCurve (f : Transcendental) (curve : Curve) :
    (ofCurve f curve).points.get 256 = 1 := by
  rw [points_ofCurve]
  rfl

theorem Samples.Rising.onLine_start {samples : Samples} (h : samples.Rising)
    (hfirst : samples.points.get 0 = 0) (ht : 0 ≤ t ∧ t ≤ 1) (hzero : exact t = 0) :
    exact (samples.onLine 0 (by decide) t) = 0 := by
  have hb := h.mem ⟨1, by decide⟩
  have hcount : (Single.ofNat 0).isFinite = true ∧ exact (Single.ofNat 0) = 0 :=
    ⟨by decide, exact_zero⟩
  have hposition := position_mem ht
  have hfinite : (t * 256).isFinite = true :=
    isFinite_of_le (by decide) (by decide) hposition.1 hposition.2
  have hfraction : exact (t * 256 - Single.ofNat 0) = 0 := by
    rw [(exact_sub hfinite hcount.1).2, exact_position ht, hzero, hcount.2, zero_mul, sub_zero, fl_zero]
  unfold Samples.onLine
  simp only
  rw [show samples.points.get ⟨0, by omega⟩ = 0 from hfirst]
  generalize samples.points.get ⟨0 + 1, by omega⟩ = b at hb ⊢
  obtain ⟨hnumber, hproduct⟩ := exact_mul (isFinite_rise zero_mem hb) (isFinite_fraction ht (i := 0) (by decide))
  rw [hfraction, mul_zero, fl_zero] at hproduct
  have hsmall : ((b - 0) * (t * 256 - Single.ofNat 0)).isFinite = true := by
    rw [isFinite_iff hnumber, hproduct]
    norm_num
  obtain ⟨hline, hsum⟩ := exact_add (isFinite_of_unit zero_mem) hsmall
  rw [exact_clamp hline hb.1, hsum, hproduct, exact_zero, add_zero, fl_zero,
    min_eq_right (exact_nonneg hb.1), max_self]

theorem Samples.Rising.progress_start {samples : Samples} (h : samples.Rising)
    (hfirst : samples.points.get 0 = 0) (ht : 0 ≤ t ∧ t ≤ 1) (hzero : exact t = 0) :
    exact (samples.progress t) = 0 := by
  have hbefore : ¬ 1 ≤ t := by
    rw [le_iff_of_number rfl (number_of_le ht.1).2, exact_one, hzero]
    norm_num
  have hpair : pair t = 0 := by
    rw [pair_eq ht.1 hbefore, hzero, zero_mul, Nat.floor_zero]
  rw [samples.progress_eq hbefore]
  simp only [hpair]
  exact h.onLine_start hfirst ht hzero

theorem eval_start (f : Transcendental) (curve : Curve) (h : t.isNaN = false) (hzero : exact t = 0) :
    exact ((CurveTable.build f).eval curve t) = 0 := by
  obtain ⟨hnumber, hkept⟩ := exact_clamp_unit h
  rw [hzero, min_eq_right zero_le_one, max_self] at hkept
  have hmem : 0 ≤ Single.clamp 0 1 t ∧ Single.clamp 0 1 t ≤ 1 :=
    clamp_mem h zero_mem.1 zero_mem.2 one_mem.1 one_mem.2
  have sampled : ∀ curve, exact ((Samples.ofCurve f curve).progress (Single.clamp 0 1 t)) = 0 :=
    fun curve => (rising_ofCurve f curve).progress_start (Samples.first_ofCurve f curve) hmem hkept
  unfold CurveTable.eval
  rw [h, if_neg Bool.false_ne_true]
  cases curve with
  | linear => exact hkept
  | sine => exact sampled .sine
  | log => exact sampled .log
  | exp => exact sampled .exp
  | now =>
    have hstill : ¬ 0 < Single.clamp 0 1 t := by
      rw [lt_iff_of_number rfl hnumber, exact_zero, hkept]
      exact lt_irrefl 0
    simp only [if_neg hstill, exact_zero]
  | wait =>
    have hbefore : ¬ 1 ≤ Single.clamp 0 1 t := by
      rw [le_iff_of_number rfl hnumber, exact_one, hkept]
      norm_num
    simp only [if_neg hbefore, exact_zero]

theorem eval_end (table : CurveTable) (curve : Curve) (h : 1 ≤ t) : exact (table.eval curve t) = 1 := by
  have hnumber := (number_of_le h).2
  obtain ⟨hclamped, hkept⟩ := exact_clamp_unit hnumber
  have hone := exact_le h
  rw [exact_one] at hone
  rw [min_eq_left hone, max_eq_right zero_le_one] at hkept
  have hend : 1 ≤ Single.clamp 0 1 t := by
    rw [le_iff_of_number rfl hclamped, exact_one, hkept]
  have sampled : ∀ samples : Samples, exact (samples.progress (Single.clamp 0 1 t)) = 1 := by
    intro samples
    rw [Samples.progress, if_pos hend, exact_one]
  unfold CurveTable.eval
  rw [hnumber, if_neg Bool.false_ne_true]
  cases curve with
  | linear => exact hkept
  | sine => exact sampled table.sine
  | log => exact sampled table.log
  | exp => exact sampled table.exp
  | now =>
    have hmoved : 0 < Single.clamp 0 1 t := by
      rw [lt_iff_of_number rfl hclamped, exact_zero, hkept]
      exact zero_lt_one
    simp only [if_pos hmoved, exact_one]
  | wait => simp only [if_pos hend, exact_one]

/-- Every curve rises from 0 to 1, whatever the two functions return that its samples are taken from.
* Its progress is a number from 0 to 1 at any position, also at one that is no number.
* It is 0 at the start and 1 at the end, and not lower at a later position.
* The samples are not lower later on either, the first one 0 and the last one 1.
* Before the end, the two samples that are looked up are those around the position. -/
theorem CurveTable.rises_from_zero_to_one (f : Transcendental) (curve : Curve) :
    let table := build f
    let samples := Samples.ofCurve f curve
    (∀ t, 0 ≤ table.eval curve t ∧ table.eval curve t ≤ 1) ∧
      (∀ t, (t == 0) = true → (table.eval curve t == 0) = true) ∧
      (∀ t, (t == 1) = true → (table.eval curve t == 1) = true) ∧
      (∀ t u, t ≤ u → table.eval curve t ≤ table.eval curve u) ∧
      (samples.points.get 0 = 0 ∧ samples.points.get 256 = 1 ∧
        ∀ i j, i ≤ j → samples.points.get i ≤ samples.points.get j) ∧
      ∀ t, 0 ≤ t → ¬ 1 ≤ t →
        Samples.pair t = ⌊exact t * 256⌋₊ ∧ Samples.pair t + 1 < 257 ∧
          samples.progress t = samples.onLine (Samples.pair t) (Samples.pair_lt t) t := by
  intro table samples
  have hrising : table.Rising := rising_build f
  have hmem := eval_mem hrising curve
  refine ⟨hmem, fun t ht => ?_, fun t ht => ?_, fun t u => eval_le_eval hrising curve, ?_, ?_⟩
  · obtain ⟨hnumber, -, hzero⟩ := (beq_iff t 0).1 ht
    rw [exact_zero] at hzero
    rw [beq_iff, exact_zero]
    exact ⟨(number_of_le (hmem t).1).2, rfl, eval_start f curve hnumber hzero⟩
  · obtain ⟨hnumber, -, hone⟩ := (beq_iff t 1).1 ht
    have hend : 1 ≤ t := (le_iff_of_number rfl hnumber).2 hone.ge
    rw [beq_iff, exact_one]
    exact ⟨(number_of_le (hmem t).1).2, rfl, eval_end table curve hend⟩
  · refine ⟨Samples.first_ofCurve f curve, Samples.last_ofCurve f curve, fun i j hij => ?_⟩
    exact (rising_ofCurve f curve).get_le hij j.isLt
  · intro t hlow hbefore
    exact ⟨Samples.pair_eq hlow hbefore, Nat.succ_lt_succ (Samples.pair_lt t),
      samples.progress_eq hbefore⟩

/-- Of two functions that never return a number only the ends are left, and the curve rises between its
last two samples. -/
theorem CurveTable.rises_from_zero_to_one_of_nan :
    let table := build ⟨fun _ => 0 / 0, fun _ => 0 / 0⟩
    0 ≤ table.eval .sine (0 / 0) ∧ ((-0 : Float32) == 0) = true ∧ (table.eval .sine (-0) == 0) = true ∧
      ((1 : Float32) == 1) = true ∧ (table.eval .sine 1 == 1) = true ∧
      (-1 : Float32) ≤ 0.5 ∧ table.eval .sine (-1) ≤ table.eval .sine 0.5 ∧
      Samples.pair 0.99999994 = ⌊exact 0.99999994 * 256⌋₊ := by
  intro table
  obtain ⟨hmem, hstart, hend, hrise, -, hpair⟩ :=
    rises_from_zero_to_one ⟨fun _ => 0 / 0, fun _ => 0 / 0⟩ .sine
  have hzero : ((-0 : Float32) == 0) = true := by decide
  have hone : ((1 : Float32) == 1) = true := by decide
  have hle : (-1 : Float32) ≤ 0.5 := by decide
  exact ⟨(hmem _).1, hzero, hstart _ hzero, hone, hend _ hone, hle, hrise _ _ hle,
    (hpair 0.99999994 (by decide) (by decide)).1⟩

end ControlVoltage

import ControlVoltage.Proofs.Signal.Curves
import ControlVoltage.Proofs.Voice.Glide

/-!
# Jumps

Two curves do not glide: one jumps to the target with the first sample, the other with the last. Only
the last sample is the target itself. Those before it come from the difference of the two ends, which
is rounded, and from a position, the quotient of two counts, each rounded before they are divided. So
an early sample can fall short of the target, and the last position can be reached too early.

* `Flight.jump` : the start and the difference together, as they are rounded.
* `Flight.Short` : a jump that does not get to the target; `Flight.landing`, where it gets to.
* `Flight.Finite.volts_now`, `volts_wait` : the samples before the last one.
* `Ramp.now_on_target_iff`, `wait_holds_iff` : when the jump is to the target, and when it comes last.
-/

namespace ControlVoltage

open Single

namespace Flight

variable {table : CurveTable} {f : Flight} {j : Nat}

/-! ## Where a jump gets to -/

/-- The start and the difference of the two ends together, as they are rounded. -/
def jump (f : Flight) : Float32 := f.start + (f.segment.target - f.start)

/-- The jump does not get to the target. -/
def Short (f : Flight) : Prop :=
  if f.start ≤ f.segment.target then f.jump < f.segment.target else f.segment.target < f.jump

instance (f : Flight) : Decidable f.Short :=
  inferInstanceAs (Decidable (if f.start ≤ f.segment.target then f.jump < f.segment.target
    else f.segment.target < f.jump))

/-- Where a jump gets to before the last sample. -/
def landing (f : Flight) : Float32 := if f.Short then f.jump else f.segment.target

theorem Finite.exact_jump (h : f.Finite) : f.jump.isNaN = false ∧
    exact f.jump = fl (exact f.start + exact (f.segment.target - f.start)) :=
  exact_add h.start h.width

theorem Finite.short_iff (h : f.Finite) : f.Short ↔
    if f.start ≤ f.segment.target then exact f.jump < exact f.segment.target
      else exact f.segment.target < exact f.jump := by
  have htarget := number_of_isFinite h.target
  unfold Short
  rw [lt_iff_of_number h.exact_jump.1 htarget, lt_iff_of_number htarget h.exact_jump.1]

theorem Finite.not_short (h : f.Finite)
    (hexact : exact (f.segment.target - f.start) = exact f.segment.target - exact f.start) :
    ¬ f.Short := by
  have hjump : exact f.jump = exact f.segment.target := by
    rw [h.exact_jump.2, hexact, add_sub_cancel, fl_exact h.target]
  rw [h.short_iff, hjump]
  split_ifs <;> exact lt_irrefl _

theorem Finite.number_landing (h : f.Finite) : f.landing.isNaN = false := by
  unfold landing
  split_ifs
  · exact h.exact_jump.1
  · exact number_of_isFinite h.target

theorem Finite.landing_beq_target_iff (h : f.Finite) :
    (f.landing == f.segment.target) = true ↔ ¬ f.Short := by
  by_cases hshort : f.Short
  · have hne : exact f.jump ≠ exact f.segment.target := by
      have hside := h.short_iff.1 hshort
      split_ifs at hside
      · exact hside.ne
      · exact hside.ne'
    rw [landing, if_pos hshort, beq_iff]
    exact iff_of_false (fun heq => hne heq.2.2) (not_not.2 hshort)
  · rw [landing, if_neg hshort]
    exact iff_of_true (beq_refl_of_number (number_of_isFinite h.target)) hshort

/-! ## Samples before the last one -/

theorem Finite.onward_jump (h : f.Finite) : f.Onward f.start f.jump := by
  have hstart := number_of_isFinite h.start
  obtain ⟨hjump, hsum⟩ := h.exact_jump
  unfold Onward
  split_ifs with hup
  · have hwidth := exact_sub_nonneg h.target h.start hup
    rw [le_iff_of_number hstart hjump, hsum]
    calc exact f.start = fl (exact f.start) := (fl_exact h.start).symm
      _ ≤ fl (exact f.start + exact (f.segment.target - f.start)) := fl_mono (by linarith)
  · have hwidth := exact_sub_nonpos h.target h.start (h.le hup)
    rw [le_iff_of_number hjump hstart, hsum]
    calc fl (exact f.start + exact (f.segment.target - f.start)) ≤ fl (exact f.start) :=
          fl_mono (by linarith)
      _ = exact f.start := fl_exact h.start

theorem Finite.exact_landing (h : f.Finite) : exact f.landing =
    if f.start ≤ f.segment.target then min (exact f.segment.target) (exact f.jump)
      else max (exact f.segment.target) (exact f.jump) := by
  have hshort := h.short_iff
  unfold landing
  by_cases hup : f.start ≤ f.segment.target
  · rw [if_pos hup] at hshort ⊢
    split_ifs with hjump
    · exact (min_eq_right (hshort.1 hjump).le).symm
    · exact (min_eq_left (not_lt.1 (mt hshort.2 hjump))).symm
  · rw [if_neg hup] at hshort ⊢
    split_ifs with hjump
    · exact (max_eq_right (hshort.1 hjump).le).symm
    · exact (max_eq_left (not_lt.1 (mt hshort.2 hjump))).symm

theorem Finite.exact_line (h : f.Finite) {p : Float32} (hp : 0 ≤ p ∧ p ≤ 1) {q : ℚ}
    (hq : exact ((f.segment.target - f.start) * p) = q) (hlt : |q| < 2 ^ 128) :
    exact (f.start + (f.segment.target - f.start) * p) = fl (exact f.start + q) := by
  have hnumber := (exact_mul h.width (isFinite_of_unit hp)).1
  have hfinite := (isFinite_iff hnumber).2 (by rwa [hq])
  rw [(exact_add h.start hfinite).2, hq]

theorem Finite.voltsAt_one (h : f.Finite) : (f.voltsAt 1 == f.landing) = true := by
  have hunit : (0 : Float32) ≤ 1 ∧ (1 : Float32) ≤ 1 := by decide +kernel
  have hline := h.number_line hunit
  have hsum : exact (f.start + (f.segment.target - f.start) * 1) = exact f.jump := by
    have hwidth := (isFinite_iff (number_of_isFinite h.width)).1 h.width
    rw [h.exact_line hunit (exact_mul_one h.width) hwidth, h.exact_jump.2]
  have honward := h.onward_jump
  rw [beq_iff]
  refine ⟨(h.onward_voltsAt hunit).2.number.1, h.number_landing, ?_⟩
  rw [h.exact_landing]
  unfold voltsAt
  rw [bounds_ramp]
  unfold Onward at honward
  split_ifs at * with hup
  · rw [exact_clamp hline hup, hsum]
    exact max_eq_right (le_min (exact_le hup) (exact_le honward))
  · rw [exact_clamp hline (h.le hup), hsum, min_eq_right (exact_le honward)]

theorem Finite.voltsAt_zero (h : f.Finite) : (f.voltsAt 0 == f.start) = true := by
  have hunit : (0 : Float32) ≤ 0 ∧ (0 : Float32) ≤ 1 := by decide +kernel
  have hline := h.number_line hunit
  have hsum : exact (f.start + (f.segment.target - f.start) * 0) = exact f.start := by
    rw [h.exact_line hunit (exact_mul_zero h.width) (by norm_num), add_zero, fl_exact h.start]
  rw [beq_iff]
  refine ⟨(h.onward_voltsAt hunit).2.number.1, number_of_isFinite h.start, ?_⟩
  unfold voltsAt
  rw [bounds_ramp]
  split_ifs with hup
  · rw [exact_clamp hline hup, hsum, min_eq_right (exact_le hup), max_self]
  · rw [exact_clamp hline (h.le hup), hsum, min_self, max_eq_right (exact_le (h.le hup))]

theorem position_eq (hj : j < f.ticks) :
    f.position j = (UInt32.ofNat (j + 1)).toFloat32 / f.segment.ticks.toFloat32 := by
  have helapsed := congrArg UInt32.ofNat (toNat_elapsed hj)
  rw [UInt32.ofNat_toNat] at helapsed
  rw [position, helapsed]

theorem ofNat_ne_zero (hj : j < f.ticks) : UInt32.ofNat (j + 1) ≠ 0 ∧ f.segment.ticks ≠ 0 := by
  have hlt : j + 1 < UInt32.size := lt_of_le_of_lt hj f.segment.ticks.toNat_lt
  constructor
  · intro hzero
    have := congrArg UInt32.toNat hzero
    rw [UInt32.toNat_ofNat_of_lt' hlt] at this
    exact Nat.succ_ne_zero j this
  · intro hzero
    rw [ticks, hzero] at hj
    exact absurd hj (Nat.not_lt_zero j)

theorem Finite.volts_now (h : f.Finite) (hcurve : f.segment.curve = .now) (hj : j + 1 < f.ticks) :
    (f.volts table j == f.landing) = true := by
  obtain ⟨hcount, hticks⟩ := ofNat_ne_zero (Nat.lt_of_succ_lt hj)
  have hpos : 0 < f.position j := by
    rw [position_eq (Nat.lt_of_succ_lt hj)]
    exact div_toFloat32_pos hcount hticks
  rw [volts_eq hj, hcurve, table.eval_now hpos]
  exact h.voltsAt_one

/-- A jump with the last sample comes as soon as the count of the samples is rounded to that of all. -/
theorem Finite.volts_wait (h : f.Finite) (hcurve : f.segment.curve = .wait) (hj : j + 1 < f.ticks) :
    (f.volts table j ==
      if (UInt32.ofNat (j + 1)).toFloat32 < f.segment.ticks.toFloat32 then f.start
        else f.landing) = true := by
  obtain ⟨hcount, hticks⟩ := ofNat_ne_zero (Nat.lt_of_succ_lt hj)
  have hcountpos := exact_toFloat32_pos hcount
  have htickspos := exact_toFloat32_pos hticks
  have hcountfinite := isFinite_toFloat32 (UInt32.ofNat (j + 1))
  have hticksfinite := isFinite_toFloat32 f.segment.ticks
  have hposition := position_eq (Nat.lt_of_succ_lt hj)
  have hnumber : (f.position j).isNaN = false := by
    rw [hposition]
    exact (exact_div hcountfinite hticksfinite htickspos.ne').1
  have hreached : 1 ≤ f.position j ↔
      ¬ (UInt32.ofNat (j + 1)).toFloat32 < f.segment.ticks.toFloat32 := by
    rw [hposition, one_le_div_iff hcountfinite hticksfinite hcountpos htickspos,
      le_iff_of_number (number_of_isFinite hticksfinite) (number_of_isFinite hcountfinite),
      lt_iff_of_number (number_of_isFinite hcountfinite) (number_of_isFinite hticksfinite), not_lt]
  rw [volts_eq hj, hcurve, table.eval_wait hnumber]
  by_cases hearly : (UInt32.ofNat (j + 1)).toFloat32 < f.segment.ticks.toFloat32
  · rw [if_neg (fun hone => hreached.1 hone hearly), if_pos hearly]
    exact h.voltsAt_zero
  · rw [if_pos (hreached.2 hearly), if_neg hearly]
    exact h.voltsAt_one

end Flight

/-! ## Runs -/

namespace Ramp

theorem iterate_last (table : CurveTable) (ramp : Ramp) (segment : Segment)
    (hticks : segment.ticks ≠ 0) :
    ((fun r => (r.step table).2)^[segment.ticks.toNat] (ramp.toward segment)).current =
      segment.target := by
  have hpos : 0 < segment.ticks.toNat := Nat.pos_of_ne_zero fun h => hticks (UInt32.toNat_inj.1 h)
  rw [course_iterate table ramp hticks le_rfl]
  exact Flight.course_last table hpos

theorem toNat_pred {ticks : UInt32} (hticks : ticks ≠ 0) :
    (ticks - 1).toNat = ticks.toNat - 1 ∧ 0 < ticks.toNat := by
  have hpos : 0 < ticks.toNat := Nat.pos_of_ne_zero fun h => hticks (UInt32.toNat_inj.1 h)
  exact ⟨UInt32.toNat_sub_of_le _ _ (UInt32.le_iff_toNat_le.2 hpos), hpos⟩

theorem count_le {ticks : UInt32} (hticks : ticks ≠ 0) {k : Nat} (hk : k < ticks.toNat) :
    (UInt32.ofNat k).toFloat32 ≤ (ticks - 1).toFloat32 := by
  apply toFloat32_le
  rw [UInt32.le_iff_toNat_le, UInt32.toNat_ofNat_of_lt' (hk.trans ticks.toNat_lt),
    (toNat_pred hticks).1]
  exact Nat.le_sub_one_of_lt hk

theorem now_sample (table : CurveTable) {ramp : Ramp} {target : Float32} {ticks : UInt32}
    (h : Flight.Finite ⟨ramp.current, ⟨target, ticks, .now⟩⟩) {k : Nat} (hk : 1 ≤ k)
    (hlt : k < ticks.toNat) :
    (((fun r => (r.step table).2)^[k] (ramp.toward ⟨target, ticks, .now⟩)).current ==
      Flight.landing ⟨ramp.current, ⟨target, ticks, .now⟩⟩) = true := by
  have hticks : ticks ≠ 0 := fun hzero => Nat.not_lt_zero k (by rwa [hzero] at hlt)
  obtain ⟨j, rfl⟩ := Nat.exists_eq_add_of_le' hk
  rw [course_iterate table ramp hticks hlt.le]
  exact h.volts_now rfl hlt

theorem wait_sample (table : CurveTable) {ramp : Ramp} {target : Float32} {ticks : UInt32}
    (h : Flight.Finite ⟨ramp.current, ⟨target, ticks, .wait⟩⟩) {k : Nat} (hk : 1 ≤ k)
    (hlt : k < ticks.toNat) :
    (((fun r => (r.step table).2)^[k] (ramp.toward ⟨target, ticks, .wait⟩)).current ==
      if (UInt32.ofNat k).toFloat32 < ticks.toFloat32 then ramp.current
        else Flight.landing ⟨ramp.current, ⟨target, ticks, .wait⟩⟩) = true := by
  have hticks : ticks ≠ 0 := fun hzero => Nat.not_lt_zero k (by rwa [hzero] at hlt)
  obtain ⟨j, rfl⟩ := Nat.exists_eq_add_of_le' hk
  rw [course_iterate table ramp hticks hlt.le]
  exact h.volts_wait rfl hlt

/-- How a ramp jumps at once. From any ramp that is on a finite voltage, toward a finite target with a
finite difference between the two, in any number of ticks above zero: with the last tick the voltage is
the target itself, and with every one before it where the jump gets to. So it is on the target all the
time exactly if there is only one tick, or the jump gets to the target, as it does if the difference is
not rounded. -/
theorem now_on_target_iff (f : Transcendental) (ramp : Ramp) (target : Float32) (ticks : UInt32)
    (hcurrent : ramp.current.isFinite = true) (htarget : target.isFinite = true)
    (hwidth : (target - ramp.current).isFinite = true) (hticks : ticks ≠ 0) :
    let flight : Flight := ⟨ramp.current, ⟨target, ticks, .now⟩⟩
    let volts := fun k : Nat =>
      ((fun r => (r.step (CurveTable.build f)).2)^[k] (ramp.toward flight.segment)).current
    volts ticks.toNat = target ∧
      (∀ k, 1 ≤ k → k < ticks.toNat → (volts k == flight.landing) = true) ∧
      ((∀ k, 1 ≤ k → k ≤ ticks.toNat → (volts k == target) = true) ↔ ticks = 1 ∨ ¬ flight.Short) ∧
      (exact (target - ramp.current) = exact target - exact ramp.current → ¬ flight.Short) := by
  intro flight volts
  have hfinite : flight.Finite := ⟨hcurrent, htarget, hwidth⟩
  have hlast : volts ticks.toNat = target := iterate_last (CurveTable.build f) ramp flight.segment hticks
  have hearly : ∀ k, 1 ≤ k → k < ticks.toNat → (volts k == flight.landing) = true :=
    fun k hk hlt => now_sample (CurveTable.build f) hfinite hk hlt
  refine ⟨hlast, hearly, ⟨fun hall => ?_, fun hreach k hk hle => ?_⟩, hfinite.not_short⟩
  · by_cases hone : 1 < ticks.toNat
    · have hfirst := BEq.trans (BEq.symm (hearly 1 le_rfl hone)) (hall 1 le_rfl hone.le)
      exact Or.inr (hfinite.landing_beq_target_iff.1 hfirst)
    · have hpos := (toNat_pred hticks).2
      exact Or.inl (UInt32.toNat_inj.1 (le_antisymm (not_lt.1 hone) hpos))
  · rcases hle.lt_or_eq with hlt | rfl
    · rcases hreach with rfl | hreach
      · exact absurd hlt (not_lt.2 hk)
      · exact BEq.trans (hearly k hk hlt) (hfinite.landing_beq_target_iff.2 hreach)
    · rw [hlast]
      exact beq_refl_of_number (number_of_isFinite htarget)

/-- From 0 V to 5 V the difference is not rounded. -/
theorem now_on_target_from_zero :
    let volts := fun k : Nat => ((fun r => (r.step CurveTable.standard).2)^[k]
      ((rest 0).toward ⟨5, 10, .now⟩)).current
    (∀ k, 1 ≤ k → k ≤ 10 → (volts k == 5) = true) ∧ volts 10 = 5 := by
  obtain ⟨hlast, -, htarget, -⟩ := now_on_target_iff .standard (rest 0) 5 10 (by decide +kernel)
    (by decide +kernel) (by decide +kernel) (by decide)
  exact ⟨htarget.2 (Or.inr (by decide +kernel)), hlast⟩

/-- From -5 V to 0.1 V the difference is rounded, and the first samples are below the target. -/
theorem now_falls_short :
    let ramp := (rest (-5)).toward ⟨0.1, 3, .now⟩
    let once := (ramp.step CurveTable.standard).2
    ((0.1 - -5 : Float32).isFinite = true ∧ once.current < 0.1) ∧
      (once.step CurveTable.standard).2.current < 0.1 := by
  decide +kernel

/-- How a ramp jumps at the end. From any ramp that is on a finite voltage, toward a finite target with
a finite difference between the two, in any number of ticks above zero: with the last tick the voltage
is the target itself. With one before it the voltage is what it was, or, if the count of the ticks so
far is rounded to that of all, where the jump gets to. So it holds until the last tick exactly if the
last count but one is told from that of all, as it is up to `2 ^ 24` ticks, or if the jump gets
nowhere. -/
theorem wait_holds_iff (f : Transcendental) (ramp : Ramp) (target : Float32) (ticks : UInt32)
    (hcurrent : ramp.current.isFinite = true) (htarget : target.isFinite = true)
    (hwidth : (target - ramp.current).isFinite = true) (hticks : ticks ≠ 0) :
    let flight : Flight := ⟨ramp.current, ⟨target, ticks, .wait⟩⟩
    let volts := fun k : Nat =>
      ((fun r => (r.step (CurveTable.build f)).2)^[k] (ramp.toward flight.segment)).current
    volts ticks.toNat = target ∧
      (∀ k, 1 ≤ k → k < ticks.toNat →
        (volts k == if (UInt32.ofNat k).toFloat32 < ticks.toFloat32 then ramp.current
          else flight.landing) = true) ∧
      ((∀ k < ticks.toNat, (volts k == ramp.current) = true) ↔
        (ticks - 1).toFloat32 < ticks.toFloat32 ∨ (flight.landing == ramp.current) = true) ∧
      (ticks ≤ 16777216 → ∀ k < ticks.toNat, (volts k == ramp.current) = true) := by
  intro flight volts
  have hfinite : flight.Finite := ⟨hcurrent, htarget, hwidth⟩
  have hstart := beq_refl_of_number (number_of_isFinite hcurrent)
  have hzero : volts 0 = ramp.current := course_iterate (CurveTable.build f) ramp hticks (Nat.zero_le _)
  have hearly : ∀ k, 1 ≤ k → k < ticks.toNat →
      (volts k == if (UInt32.ofNat k).toFloat32 < ticks.toFloat32 then ramp.current
        else flight.landing) = true :=
    fun k hk hlt => wait_sample (CurveTable.build f) hfinite hk hlt
  have hholds : (ticks - 1).toFloat32 < ticks.toFloat32 →
      ∀ k < ticks.toNat, (volts k == ramp.current) = true := by
    intro htold k hk
    rcases Nat.eq_zero_or_pos k with rfl | hpos
    · rw [hzero]
      exact hstart
    · have hsample := hearly k hpos hk
      rwa [if_pos (Single.lt_of_le_of_lt (count_le hticks hk) htold)] at hsample
  obtain ⟨hpred, hpos⟩ := toNat_pred hticks
  refine ⟨iterate_last (CurveTable.build f) ramp flight.segment hticks, hearly, ⟨fun hall => ?_, ?_⟩,
    fun hfew => hholds ?_⟩
  · by_cases htold : (ticks - 1).toFloat32 < ticks.toFloat32
    · exact Or.inl htold
    · -- The last count but one is rounded up, and its sample is where the jump gets to already.
      have hbefore : ticks.toNat - 1 < ticks.toNat := Nat.sub_one_lt hpos.ne'
      have hsome : 1 ≤ ticks.toNat - 1 := by
        by_contra hnone
        have hone : ticks = 1 := UInt32.toNat_inj.1 (by
          show ticks.toNat = 1
          omega)
        subst hone
        exact htold (by decide +kernel)
      have hsample := hearly (ticks.toNat - 1) hsome hbefore
      rw [← hpred, UInt32.ofNat_toNat, if_neg htold, hpred] at hsample
      exact Or.inr (BEq.trans (BEq.symm hsample) (hall _ hbefore))
  · rintro (htold | hnowhere) k hk
    · exact hholds htold k hk
    · rcases Nat.eq_zero_or_pos k with rfl | hpos
      · rw [hzero]
        exact hstart
      · refine BEq.trans (hearly k hpos hk) ?_
        split_ifs
        · exact hstart
        · exact hnowhere
  · refine toFloat32_lt ?_ (UInt32.le_iff_toNat_le.1 hfew)
    rw [UInt32.lt_iff_toNat_lt, hpred]
    exact Nat.sub_one_lt hpos.ne'

/-- From 0 V to 5 V in ten ticks. -/
theorem wait_holds_ten :
    let volts := fun k : Nat => ((fun r => (r.step CurveTable.standard).2)^[k]
      ((rest 0).toward ⟨5, 10, .wait⟩)).current
    (∀ k < 10, (volts k == 0) = true) ∧ volts 10 = 5 := by
  obtain ⟨hlast, -, -, hfew⟩ := wait_holds_iff .standard (rest 0) 5 10 (by decide +kernel)
    (by decide +kernel) (by decide +kernel) (by decide)
  exact ⟨hfew (by decide), hlast⟩

/-- The last count but one of `2 ^ 24 + 1` is rounded to the same number as the last. -/
theorem wait_jumps_early :
    let volts := fun k : Nat => ((fun r => (r.step CurveTable.standard).2)^[k]
      ((rest 0).toward ⟨5, 16777217, .wait⟩)).current
    16777216 < (16777217 : UInt32).toNat ∧ (volts 16777216 == 5) = true ∧
      (volts 16777216 == 0) = false := by
  intro volts
  have hfinite : Flight.Finite ⟨(rest 0).current, ⟨5, 16777217, .wait⟩⟩ :=
    ⟨by decide +kernel, by decide +kernel, by decide +kernel⟩
  have hbefore : 16777216 < (16777217 : UInt32).toNat := by decide +kernel
  have hsample := wait_sample CurveTable.standard hfinite (by decide) hbefore
  rw [if_neg (by decide +kernel)] at hsample
  have hfive : (volts 16777216 == 5) = true := BEq.trans hsample (by decide +kernel)
  refine ⟨hbefore, hfive, ?_⟩
  by_contra hzero
  have hsame : ((5 : Float32) == 0) = true :=
    BEq.trans (BEq.symm hfive) (Bool.eq_true_of_not_eq_false hzero)
  exact absurd hsame (by decide +kernel)

end Ramp

end ControlVoltage

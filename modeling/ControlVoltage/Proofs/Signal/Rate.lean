import ControlVoltage.Proofs.Single.Nearness
import ControlVoltage.Proofs.Single.Order
import ControlVoltage.Signal.Rate

/-!
# Counts of ticks and seconds

A count is turned into seconds by a division by the rate, and back by a multiplication and a rounding
to the nearest whole number. The rate itself need not be a single. Below `2 ^ 22` ticks all of this is
less than half a tick off, and so a count is read back. The count rises with the duration, also where
it is kept between one tick and the largest count.

* `toNat_ticks` : a positive duration takes the nearest whole number of ticks, within bounds.
* `ticks_le_ticks` : the count rises with the duration.
* `abs_seconds_mul_hz_sub_lt` : the two roundings together are less than half a tick.
* `ticks_agree_with_seconds` : the two conversions agree.
-/

namespace ControlVoltage.Rate

open Single

variable (rate : Rate) {s t : Float32}

/-! ## The number of ticks in a second -/

theorem exact_hz_pos : 0 < exact rate.hz.toFloat32 :=
  exact_toFloat32_pos rate.hz_ne_zero

theorem ordered_mul_hz : Ordered (· * rate.hz.toFloat32) :=
  ordered_mul_right (isFinite_toFloat32 rate.hz) rate.exact_hz_pos

theorem mul_hz_nonneg (h : 0 ≤ s) : 0 ≤ s * rate.hz.toFloat32 := by
  have hle := rate.ordered_mul_hz.le h
  have hzero := (exact_mul (x := 0) (by decide) (isFinite_toFloat32 rate.hz)).2
  have hleast := exact_le hle
  rw [hzero, exact_zero, zero_mul, fl_zero] at hleast
  rwa [le_iff_of_number rfl (number_of_le hle).2, exact_zero]

theorem hz_mem : (1 : Float32) ≤ rate.hz.toFloat32 ∧ rate.hz.toFloat32.isFinite = true := by
  refine ⟨?_, isFinite_toFloat32 rate.hz⟩
  rw [le_iff_of_number rfl (exact_toFloat32 rate.hz).1, exact_one]
  exact one_le_exact_toFloat32 rate.hz_ne_zero

/-! ## Counts -/

theorem ticks_of_le_zero (h : s ≤ 0) : rate.ticks s = 0 := by
  unfold ticks
  rw [if_pos]
  simp only [h, decide_true, Bool.or_true]

theorem exact_maxTicks : exact maxTicks = 2 ^ 32 := by
  have hunpack : maxTicks.toModel.unpack = .finite .positive 8388608 9 (by decide) := rfl
  rw [exact, hunpack]
  norm_num [value, signum]

theorem toNat_max (m n : UInt32) : (max m n).toNat = max m.toNat n.toNat := by
  change (if m ≤ n then n else m).toNat = _
  split_ifs with h <;> rw [UInt32.le_iff_toNat_le] at h <;> omega

/-- A positive duration takes the nearest whole number of ticks, but at least one and at most the
largest count. -/
theorem toNat_ticks (h : 0 < s) :
    (rate.ticks s).toNat = min (max ⌊exact (s * rate.hz.toFloat32) + 1 / 2⌋₊ 1) 4294967295 := by
  have hzero : ¬ s ≤ 0 := fun hle => not_lt_of_le hle h
  have hnumber := (number_of_le (Single.le_of_lt h)).2
  have hproduct : 0 ≤ s * rate.hz.toFloat32 := rate.mul_hz_nonneg (Single.le_of_lt h)
  obtain ⟨hcount, hexact⟩ := exact_roundAway hproduct
  have hwhole := toNat_toUInt32 (roundAway_nonneg hproduct)
  have hmost : maxTicks ≤ roundAway (s * rate.hz.toFloat32) ↔
      4294967296 ≤ ⌊exact (s * rate.hz.toFloat32) + 1 / 2⌋₊ := by
    rw [le_iff_of_number rfl hcount, hexact, exact_maxTicks]
    norm_cast
  rw [hexact, Nat.floor_natCast] at hwhole
  unfold ticks
  rw [hnumber, Bool.false_or, if_neg (by rwa [decide_eq_true_eq])]
  simp only [hmost]
  split_ifs with hlong
  · change 4294967295 = _
    omega
  · rw [toNat_max, hwhole]
    change max _ 1 = _
    omega

theorem ticks_eq_zero_iff (h : s.isNaN = false) : rate.ticks s = 0 ↔ s ≤ 0 := by
  constructor
  · intro hzero
    by_contra hpos
    have hcount := rate.toNat_ticks (lt_of_not_le h rfl hpos)
    rw [hzero] at hcount
    change 0 = _ at hcount
    omega
  · exact rate.ticks_of_le_zero

theorem ticks_le_ticks (h : s ≤ t) : rate.ticks s ≤ rate.ticks t := by
  by_cases hzero : s ≤ 0
  · rw [rate.ticks_of_le_zero hzero]
    exact UInt32.zero_le
  · have hs : 0 < s := lt_of_not_le (number_of_le h).1 rfl hzero
    have ht : 0 < t := lt_of_lt_of_le hs h
    have hproduct := exact_le (rate.ordered_mul_hz.le h)
    have hcount : ⌊exact (s * rate.hz.toFloat32) + 1 / 2⌋₊ ≤
        ⌊exact (t * rate.hz.toFloat32) + 1 / 2⌋₊ := Nat.floor_mono (by linarith)
    rw [UInt32.le_iff_toNat_le, rate.toNat_ticks hs, rate.toNat_ticks ht]
    omega

theorem ticks_zero : rate.ticks 0 = 0 := rate.ticks_of_le_zero (by decide)

theorem ticks_of_long : rate.ticks 4294967296 = 4294967295 := by
  obtain ⟨hone, hfinite⟩ := rate.hz_mem
  have hlong : 4294967296 * 1 ≤ 4294967296 * rate.hz.toFloat32 :=
    Single.mul_le_mul_left (by decide) hfinite (by decide) hone (by decide)
  have hmost := exact_le (le_trans_of_le (x := maxTicks) (by decide) hlong)
  rw [exact_maxTicks] at hmost
  have hcount : 4294967296 ≤ ⌊exact (4294967296 * rate.hz.toFloat32) + 1 / 2⌋₊ := by
    apply Nat.le_floor
    push_cast
    linarith
  rw [← UInt32.toNat_inj, rate.toNat_ticks (by decide)]
  change _ = 4294967295
  omega

/-! ## Counts read back -/

theorem seconds_zero_le : rate.seconds 0 ≤ 0 := by
  obtain ⟨hnumber, hexact⟩ :=
    exact_div (isFinite_toFloat32 0) (isFinite_toFloat32 rate.hz) rate.exact_hz_pos.ne'
  have hzero : exact (0 : UInt32).toFloat32 = 0 := exact_zero
  rw [hzero, zero_div, fl_zero] at hexact
  unfold seconds
  rw [le_iff_of_number hnumber rfl, hexact, exact_zero]

theorem abs_seconds_mul_hz_sub_lt {n : UInt32} (h : n.toNat < 2 ^ 22) (hpos : n ≠ 0) :
    |exact (rate.seconds n * rate.hz.toFloat32) - n.toNat| < 1 / 2 := by
  have hcount := exact_toFloat32_of_le (n := n) (by omega)
  have hone := one_le_exact_toFloat32 hpos
  have hmost : (n.toNat : ℚ) + 1 ≤ 2 ^ 22 := by exact_mod_cast h
  have hrate := rate.exact_hz_pos
  have hslowest := one_le_exact_toFloat32 rate.hz_ne_zero
  have hfastest := exact_toFloat32_le rate.hz
  rw [hcount] at hone
  have hleast : (2 : ℚ) ^ (-126 : ℤ) ≤ n.toNat / exact rate.hz.toFloat32 := by
    rw [le_div_iff₀ hrate]
    norm_num at hfastest ⊢
    linarith
  have hquotient : (n.toNat : ℚ) / exact rate.hz.toFloat32 ≤ 2 ^ 127 := by
    rw [div_le_iff₀ hrate]
    norm_num at hmost ⊢
    linarith
  have herror := abs_div_mul_sub_le (isFinite_toFloat32 n) (isFinite_toFloat32 rate.hz) hrate
    (by rw [hcount]; norm_num; linarith) (by rw [hcount]; norm_num at hmost ⊢; linarith)
    (by rwa [hcount]) (by rwa [hcount])
  rw [hcount] at herror
  refine herror.trans_lt ?_
  norm_num at hmost ⊢
  linarith

theorem ticks_seconds {n : UInt32} (h : n.toNat < 2 ^ 22) : rate.ticks (rate.seconds n) = n := by
  by_cases hzero : n = 0
  · subst hzero
    exact rate.ticks_of_le_zero rate.seconds_zero_le
  · have hoff := abs_lt.1 (rate.abs_seconds_mul_hz_sub_lt h hzero)
    have hnearest : ⌊exact (rate.seconds n * rate.hz.toFloat32) + 1 / 2⌋₊ = n.toNat := by
      rw [Nat.floor_eq_iff (by linarith [Nat.cast_nonneg (α := ℚ) n.toNat])]
      constructor <;> linarith
    have hpositive : 0 < rate.seconds n := div_toFloat32_pos hzero rate.hz_ne_zero
    have hone : n.toNat ≠ 0 := fun h => hzero (UInt32.toNat_inj.1 h)
    rw [← UInt32.toNat_inj, rate.toNat_ticks hpositive, hnearest]
    omega

/-- The two conversions agree at every rate. Counts below `2 ^ 22` are read back; a longer duration
takes no fewer ticks; only what is not above zero takes none; and a positive duration takes the nearest
whole number of ticks, as far as this is between one and the largest count. -/
theorem ticks_agree_with_seconds (rate : Rate) :
    (∀ n : UInt32, n.toNat < 2 ^ 22 → rate.ticks (rate.seconds n) = n) ∧
      (∀ s t : Float32, s ≤ t → rate.ticks s ≤ rate.ticks t) ∧
      (∀ s : Float32, s.isNaN = false → (rate.ticks s = 0 ↔ s ≤ 0)) ∧
      ∀ s : Float32, 0 < s → (rate.ticks s).toNat =
        min (max ⌊exact (s * rate.hz.toFloat32) + 1 / 2⌋₊ 1) 4294967295 := by
  refine ⟨?readBack, ?ordered, ?zero, ?nearest⟩
  case readBack => exact fun n h => rate.ticks_seconds h
  case ordered => exact fun s t h => rate.ticks_le_ticks h
  case zero => exact fun s h => rate.ticks_eq_zero_iff h
  case nearest => exact fun s h => rate.toNat_ticks h

/-- The fastest rate is not a single. Of two durations the one is counted, and the other one is cut off
at the largest count. -/
theorem ticks_agree_with_seconds_fastest :
    Rate.ticks ⟨4294967295, by decide⟩ (Rate.seconds ⟨4294967295, by decide⟩ 4194303) = 4194303 ∧
      Rate.ticks ⟨4294967295, by decide⟩ 0.5 ≤ Rate.ticks ⟨4294967295, by decide⟩ 1 ∧
      Rate.ticks ⟨4294967295, by decide⟩ (-1) = 0 ∧
      (Rate.ticks ⟨4294967295, by decide⟩ 1).toNat =
        min (max ⌊exact (1 * (4294967295 : UInt32).toFloat32) + 1 / 2⌋₊ 1) 4294967295 := by
  obtain ⟨hback, hordered, hzero, hnearest⟩ := ticks_agree_with_seconds ⟨4294967295, by decide⟩
  have hcounted : (0.5 : Float32) ≤ 1 := by decide +kernel
  exact ⟨hback 4194303 (by decide), hordered 0.5 1 hcounted, (hzero (-1) (by decide)).2 (by decide),
    hnearest 1 (by decide)⟩

example : (Rate.ticks ⟨4294967295, by decide⟩ 0.5, Rate.ticks ⟨4294967295, by decide⟩ 1) =
    (2147483648, 4294967295) := by
  decide +kernel

end ControlVoltage.Rate

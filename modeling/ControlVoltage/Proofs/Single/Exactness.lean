import ControlVoltage.Proofs.Single.Division

/-!
# Exact results

Where rounding changes nothing, or not enough to matter: what is a single already stays as it is, and
the quotient of a smaller single by a larger one stays below one.

* `fl_exact`, `fl_scaled` : a single, and a whole number of up to 24 binary digits at any scale.
* `beq_iff` : two singles are equal if they stand for the same number.
* `one_le_div_iff` : the quotients that come to one.
* `toFloat32_lt` : counts up to `2 ^ 24` are told apart.
-/

namespace ControlVoltage.Single

open Float.Model Float.Model.UnpackedFloat

variable {x y : Float32}

/-! ## Singles -/

theorem saturate_of_abs_lt {q : ℚ} (h : |q| < 2 ^ 128) : saturate q = q := by
  obtain ⟨hlow, hhigh⟩ := abs_lt.1 h
  rw [saturate, min_eq_left hhigh.le, max_eq_right hlow.le]

theorem fl_exact (h : x.isFinite = true) : fl (exact x) = exact x := by
  have hnearest : exact x = nearest (exact x) := (rounded_of_canonical h (canonical x)).value
  rw [fl, ← hnearest, saturate_of_abs_lt ((isFinite_iff (number_of_isFinite h)).1 h)]

theorem near_of_spacing {m : ℕ} {e : ℤ} (h : spacing (m * 2 ^ e) ≤ e) :
    near (m * 2 ^ e) = m * 2 ^ e := by
  obtain ⟨k, hk⟩ := Int.le.dest h
  have hscale : (2 : ℚ) ^ e = 2 ^ k * 2 ^ spacing (m * 2 ^ e) := by
    rw [← zpow_two_natAdd, add_comm, hk]
  have hmultiple : (m : ℚ) * 2 ^ e / 2 ^ spacing (m * 2 ^ e) = ((m * 2 ^ k : ℕ) : ℤ) := by
    rw [div_eq_iff (zpow_two_pos _).ne']
    push_cast
    rw [mul_assoc, ← hscale]
  rw [near, hmultiple, halfEven_intCast]
  push_cast
  rw [mul_assoc, ← hscale]

theorem fl_scaled {m : ℕ} {e : ℤ} (hm : m < 2 ^ 24) (hleast : -149 ≤ e) (hmost : e ≤ 104) :
    fl (m * 2 ^ e) = m * 2 ^ e := by
  have hnonneg : (0 : ℚ) ≤ m * 2 ^ e := mul_nonneg (Nat.cast_nonneg m) (zpow_two_pos e).le
  have hlt := magnitude_lt hm hmost
  have hnear : near (m * 2 ^ e) = m * 2 ^ e := by
    rcases Nat.eq_zero_or_pos m with rfl | hpos
    · simp [near_zero]
    · refine near_of_spacing (max_le ?_ hleast)
      have hlog : Int.log 2 ((m : ℚ) * 2 ^ e) < ((24 : ℕ) : ℤ) + e := by
        rw [← Int.lt_zpow_iff_log_lt (by norm_num) (magnitude_pos hpos e)]
        have hmq : (m : ℚ) < 2 ^ 24 := by exact_mod_cast hm
        have h := mul_lt_mul_of_pos_right hmq (zpow_two_pos e)
        rw [← zpow_two_natAdd] at h
        exact_mod_cast h
      omega
  rw [fl, nearest, if_pos hnonneg, hnear, saturate_of_abs_lt]
  rwa [abs_of_nonneg hnonneg]

theorem fl_one : fl 1 = 1 := by
  have h := fl_scaled (m := 1) (e := 0) (by norm_num) (by norm_num) (by norm_num)
  simpa using h

theorem exact_one : exact 1 = 1 := by
  have hunpack : (1 : Float32).toModel.unpack = .finite .positive 8388608 (-23) (by decide) := rfl
  rw [exact, hunpack]
  norm_num [value, signum]

theorem exact_mul_one (h : x.isFinite = true) : exact (x * 1) = exact x := by
  rw [(exact_mul h (by decide)).2, exact_one, mul_one, fl_exact h]

theorem exact_mul_zero (h : x.isFinite = true) : exact (x * 0) = 0 := by
  rw [(exact_mul h (by decide)).2, exact_zero, mul_zero, fl_zero]

/-! ## Equality -/

theorem beq_iff (x y : Float32) :
    (x == y) = true ↔ x.isNaN = false ∧ y.isNaN = false ∧ exact x = exact y := by
  change (x.toModel.unpack.compare y.toModel.unpack == some .eq) = true ↔ _
  rw [isNaN_eq, isNaN_eq]
  by_cases hnan : x.toModel.unpack.isNaN = true ∨ y.toModel.unpack.isNaN = true
  · rw [compare_of_isNaN hnan]
    exact ⟨fun h => (Bool.false_ne_true h).elim, fun ⟨hx, hy, _⟩ => by simp [hx, hy] at hnan⟩
  · rw [not_or, Bool.not_eq_true, Bool.not_eq_true] at hnan
    rw [compare_eq_compare_value hnan.1 hnan.2 (fits x) (fits y), beq_iff_eq, Option.some_inj,
      compare_eq_iff_eq]
    exact ⟨fun h => ⟨hnan.1, hnan.2, h⟩, fun h => h.2.2⟩

theorem beq_refl_of_number (h : x.isNaN = false) : (x == x) = true := (beq_iff x x).2 ⟨h, h, rfl⟩

instance partialEquivBEq : PartialEquivBEq Float32 where
  symm {x y} h := by
    rw [beq_iff] at h ⊢
    exact ⟨h.2.1, h.1, h.2.2.symm⟩
  trans {x y z} hxy hyz := by
    rw [beq_iff] at hxy hyz ⊢
    exact ⟨hxy.1, hyz.2.1, hxy.2.2.trans hyz.2.2⟩

theorem lt_of_le_of_lt {z : Float32} (hxy : x ≤ y) (hyz : y < z) : x < z := by
  obtain ⟨hx, hy⟩ := number_of_le hxy
  obtain ⟨-, hz⟩ := number_of_le (Single.le_of_lt hyz)
  rw [lt_iff_of_number hy hz] at hyz
  exact (lt_iff_of_number hx hz).2 ((exact_le hxy).trans_lt hyz)

theorem lt_of_lt_of_le {z : Float32} (hxy : x < y) (hyz : y ≤ z) : x < z := by
  obtain ⟨hx, hy⟩ := number_of_le (Single.le_of_lt hxy)
  rw [lt_iff_of_number hx hy] at hxy
  rw [lt_iff_of_number hx (number_of_le hyz).2]
  exact hxy.trans_le (exact_le hyz)

/-! ## Quotients -/

theorem unpack_of_pos (h : x.isFinite = true) (hpos : 0 < exact x) :
    ∃ m e hm, x.toModel.unpack = .finite .positive m e hm := by
  rw [isFinite_eq] at h
  unfold exact at hpos
  generalize x.toModel.unpack = u at h hpos
  cases u with
  | notANumber => cases h
  | infinity s => cases h
  | zero s => exact absurd hpos (lt_irrefl 0)
  | finite s m e hm =>
    cases s with
    | positive => exact ⟨m, e, hm, rfl⟩
    | negative =>
      simp only [value, signum] at hpos
      linarith [magnitude_pos hm e]

theorem exists_scaled (h : x.isFinite = true) (hpos : 0 < exact x) :
    ∃ (m : ℕ) (e : ℤ), exact x = m * 2 ^ e ∧ m < 2 ^ 24 ∧ -149 ≤ e ∧ (2 ^ 23 ≤ m ∨ e = -149) := by
  obtain ⟨m, e, hm, hunpack⟩ := unpack_of_pos h hpos
  have hcanonical := canonical x
  rw [hunpack] at hcanonical
  refine ⟨m, e, ?_, hcanonical⟩
  rw [exact, hunpack]
  exact one_mul _

theorem exact_le_of_lt (hx : x.isFinite = true) (hy : y.isFinite = true) (hpos : 0 < exact x)
    (h : exact x < exact y) : exact x ≤ exact y * (1 - 2 ^ (-24 : ℤ)) := by
  obtain ⟨m, e, hxeq, hm, hleast, -⟩ := exists_scaled hx hpos
  obtain ⟨n, d, hyeq, hn, -, hnormal⟩ := exists_scaled hy (hpos.trans h)
  have hnq : (n : ℚ) < 2 ^ 24 := by exact_mod_cast hn
  have hdpos := zpow_two_pos d
  rw [hxeq, hyeq] at h ⊢
  rcases le_or_gt d e with hde | hed
  · -- Both are multiples of the same power, and so at least that power apart.
    obtain ⟨k, rfl⟩ := Int.le.dest hde
    have hscale : (m : ℚ) * 2 ^ (d + k) = (m * 2 ^ k : ℕ) * 2 ^ d := by
      rw [add_comm, zpow_two_natAdd]
      push_cast
      ring
    rw [hscale] at h ⊢
    have hlt : m * 2 ^ k < n := by exact_mod_cast lt_of_mul_lt_mul_right h hdpos.le
    have hle : ((m * 2 ^ k : ℕ) : ℚ) + 1 ≤ n := by exact_mod_cast hlt
    have hdigit : (n : ℚ) * 2 ^ (-24 : ℤ) ≤ 1 := by
      norm_num
      linarith
    calc ((m * 2 ^ k : ℕ) : ℚ) * 2 ^ d ≤ n * (1 - 2 ^ (-24 : ℤ)) * 2 ^ d :=
          mul_le_mul_of_nonneg_right (by linarith) hdpos.le
      _ = n * 2 ^ d * (1 - 2 ^ (-24 : ℤ)) := by ring
  · -- The larger one is normal, and the smaller one has no more than 24 digits of a finer power.
    have hn' : (2 : ℚ) ^ 23 ≤ n := by
      exact_mod_cast hnormal.resolve_right (by omega)
    have hm' : (m : ℚ) ≤ 2 ^ 24 - 1 := by
      have : (m : ℚ) + 1 ≤ 2 ^ 24 := by exact_mod_cast hm
      linarith
    have hhalf : (2 : ℚ) ^ e * 2 ≤ 2 ^ d := by
      rw [← zpow_add_one₀ (by norm_num)]
      exact zpow_two_le (by omega)
    calc (m : ℚ) * 2 ^ e ≤ (2 ^ 24 - 1) * 2 ^ e := by gcongr
      _ ≤ (2 ^ 24 - 1) * (2 ^ d / 2) := by gcongr; linarith
      _ = 2 ^ 23 * 2 ^ d * (1 - 2 ^ (-24 : ℤ)) := by norm_num; ring
      _ ≤ n * 2 ^ d * (1 - 2 ^ (-24 : ℤ)) := by gcongr

theorem one_le_div_iff (hx : x.isFinite = true) (hy : y.isFinite = true) (hxpos : 0 < exact x)
    (hypos : 0 < exact y) : 1 ≤ x / y ↔ y ≤ x := by
  obtain ⟨hnumber, hexact⟩ := exact_div hx hy hypos.ne'
  rw [le_iff_of_number rfl hnumber, exact_one, hexact,
    le_iff_of_number (number_of_isFinite hy) (number_of_isFinite hx)]
  constructor
  · intro hone
    by_contra hlt
    have hroom := exact_le_of_lt hx hy hxpos (not_le.1 hlt)
    have hlargest := fl_scaled (m := 2 ^ 24 - 1) (e := -24) (by norm_num) (by norm_num) (by norm_num)
    have hquotient : exact x / exact y ≤ ((2 ^ 24 - 1 : ℕ) : ℚ) * 2 ^ (-24 : ℤ) := by
      rw [div_le_iff₀ hypos]
      calc exact x ≤ exact y * (1 - 2 ^ (-24 : ℤ)) := hroom
        _ = ((2 ^ 24 - 1 : ℕ) : ℚ) * 2 ^ (-24 : ℤ) * exact y := by norm_num; ring
    have := hone.trans (fl_mono hquotient)
    rw [hlargest] at this
    norm_num at this
  · intro hle
    rw [← fl_one]
    exact fl_mono ((one_le_div hypos).2 hle)

/-! ## Counts -/

theorem exact_toFloat32_of_le {n : UInt32} (h : n.toNat ≤ 2 ^ 24) : exact n.toFloat32 = n.toNat := by
  rw [(exact_toFloat32 n).2]
  rcases h.lt_or_eq with hlt | heq
  · have hscaled := fl_scaled (m := n.toNat) (e := 0) hlt (by norm_num) (by norm_num)
    rwa [zpow_zero, mul_one] at hscaled
  · have hscaled := fl_scaled (m := 1) (e := 24) (by norm_num) (by norm_num) (by norm_num)
    rw [heq]
    norm_num at hscaled ⊢
    exact hscaled

theorem toFloat32_lt {m n : UInt32} (hlt : m < n) (hn : n.toNat ≤ 2 ^ 24) :
    m.toFloat32 < n.toFloat32 := by
  rw [UInt32.lt_iff_toNat_lt] at hlt
  rw [lt_iff_of_number (exact_toFloat32 m).1 (exact_toFloat32 n).1,
    exact_toFloat32_of_le (hlt.le.trans hn), exact_toFloat32_of_le hn]
  exact_mod_cast hlt

theorem one_le_exact_toFloat32 {n : UInt32} (h : n ≠ 0) : 1 ≤ exact n.toFloat32 := by
  have hone : (1 : ℚ) ≤ n.toNat := by
    exact_mod_cast Nat.one_le_iff_ne_zero.2 fun hzero => h (UInt32.toNat_inj.1 hzero)
  rw [(exact_toFloat32 n).2, ← fl_one]
  exact fl_mono hone

theorem exact_toFloat32_le (n : UInt32) : exact n.toFloat32 ≤ 2 ^ 32 := by
  have hscaled := fl_scaled (m := 1) (e := 32) (by norm_num) (by norm_num) (by norm_num)
  have hmost : (n.toNat : ℚ) ≤ (1 : ℕ) * 2 ^ (32 : ℤ) := by
    norm_num
    exact_mod_cast n.toNat_lt.le
  calc exact n.toFloat32 = fl n.toNat := (exact_toFloat32 n).2
    _ ≤ fl ((1 : ℕ) * 2 ^ (32 : ℤ)) := fl_mono hmost
    _ = 2 ^ 32 := by
        rw [hscaled]
        norm_num

theorem div_toFloat32_pos {m n : UInt32} (hm : m ≠ 0) (hn : n ≠ 0) :
    0 < m.toFloat32 / n.toFloat32 := by
  have hnpos := exact_toFloat32_pos hn
  have hpart := one_le_exact_toFloat32 hm
  have hwhole := exact_toFloat32_le n
  obtain ⟨hnumber, hexact⟩ := exact_div (isFinite_toFloat32 m) (isFinite_toFloat32 n) hnpos.ne'
  have hquotient : ((1 : ℕ) : ℚ) * 2 ^ (-32 : ℤ) ≤ exact m.toFloat32 / exact n.toFloat32 := by
    rw [le_div_iff₀ hnpos]
    norm_num at hwhole ⊢
    linarith
  rw [lt_iff_of_number rfl hnumber, exact_zero, hexact]
  refine LT.lt.trans_le ?_ (fl_mono hquotient)
  rw [fl_scaled (by norm_num) (by norm_num) (by norm_num)]
  norm_num

end ControlVoltage.Single

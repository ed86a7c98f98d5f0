import ControlVoltage.Proofs.Single.Arithmetic

/-!
# Division and whole parts of singles

The quotient of two finite numbers is found as a whole number of units, with what the remainder tells
about the rest. The unit is small enough for the quotient to be the single nearest to the exact one.

* `stands_div` : a division of whole numbers with its remainder.
* `exact_div` : division of finite numbers.
* `div_le_div` : by the same positive number, a larger number has a larger quotient.
* `toNat_toUInt32` : the whole part of a number that is not negative.
-/

namespace ControlVoltage.Single

open Float.Model Float.Model.UnpackedFloat

theorem signum_div (s s' : Sign) : signum (s / s') = signum s / signum s' := by
  cases s <;> cases s'
  · show (1 : ℚ) = -1 / -1
    norm_num
  · show (-1 : ℚ) = -1 / 1
    norm_num
  · show (-1 : ℚ) = 1 / -1
    norm_num
  · show (1 : ℚ) = 1 / 1
    norm_num

theorem stands_div (n : ℕ) {d : ℕ} (hd : 0 < d) :
    Stands (.ofMantissaAndAccuracy (n / d) (accuracyOfFraction (n % d) d)) (n / d) := by
  have hpos : (0 : ℚ) < d := by exact_mod_cast hd
  have hsplit : (n : ℚ) = d * (n / d : ℕ) + (n % d : ℕ) := by exact_mod_cast (Nat.div_add_mod n d).symm
  have hrest : (n % d : ℕ) < (d : ℚ) := by exact_mod_cast Nat.mod_lt n hd
  generalize n / d = whole at hsplit ⊢
  generalize n % d = rest at hsplit hrest ⊢
  have hq : (n : ℚ) / d = whole + rest / d := by
    rw [hsplit]
    field_simp
  rw [hq, accuracyOfFraction]
  split_ifs with hzero
  · show (whole : ℚ) + rest / d = whole
    rw [hzero, Nat.cast_zero, zero_div, add_zero]
  · have hsome : (0 : ℚ) < rest := by exact_mod_cast Nat.pos_of_ne_zero hzero
    have hbelow : (rest : ℚ) / d < 1 := (div_lt_one hpos).2 hrest
    have habove : 0 < (rest : ℚ) / d := div_pos hsome hpos
    rcases lt_trichotomy (2 * rest) d with hlt | heq | hgt
    · have hhalf : (rest : ℚ) / d < 1 / 2 := by
        rw [div_lt_div_iff₀ hpos two_pos, one_mul, mul_comm]
        exact_mod_cast hlt
      rw [compare_lt_iff_lt.2 hlt]
      exact ⟨by linarith, by linarith⟩
    · have hhalf : (rest : ℚ) / d = 1 / 2 := by
        rw [div_eq_div_iff hpos.ne' two_ne_zero, one_mul, mul_comm]
        exact_mod_cast heq
      rw [compare_eq_iff_eq.2 heq]
      show (whole : ℚ) + rest / d = whole + 1 / 2
      rw [hhalf]
    · have hhalf : 1 / 2 < (rest : ℚ) / d := by
        rw [div_lt_div_iff₀ two_pos hpos, one_mul, mul_comm (rest : ℚ)]
        exact_mod_cast hgt
      rw [compare_gt_iff_gt.2 hgt]
      exact ⟨by linarith, by linarith⟩

theorem le_log_div {m m' : ℕ} (hm : 0 < m) (hm' : 0 < m') (e e' : ℤ) :
    (m.log2 + e) - (m'.log2 + e') - 1 ≤ Int.log 2 ((m : ℚ) * 2 ^ e / (m' * 2 ^ e')) := by
  have hlow : (2 : ℚ) ^ m.log2 ≤ m := by exact_mod_cast Nat.log2_self_le hm.ne'
  have hhigh : (m' : ℚ) ≤ 2 ^ (m'.log2 + 1) := by exact_mod_cast Nat.lt_log2_self.le
  have hnum : (2 : ℚ) ^ (m.log2 + e) ≤ m * 2 ^ e := by
    rw [zpow_two_natAdd]
    exact mul_le_mul_of_nonneg_right hlow (zpow_two_pos e).le
  have hden : (m' : ℚ) * 2 ^ e' ≤ 2 ^ (((m'.log2 + 1 : ℕ) : ℤ) + e') := by
    rw [zpow_two_natAdd]
    exact mul_le_mul_of_nonneg_right hhigh (zpow_two_pos e').le
  have hdenpos : (0 : ℚ) < m' * 2 ^ e' := mul_pos (by exact_mod_cast hm') (zpow_two_pos e')
  have hnumpos : (0 : ℚ) < m * 2 ^ e := mul_pos (by exact_mod_cast hm) (zpow_two_pos e)
  apply (Int.zpow_le_iff_le_log (b := 2) (by norm_num) (div_pos hnumpos hdenpos)).1
  calc ((2 : ℕ) : ℚ) ^ ((m.log2 + e) - (m'.log2 + e') - 1)
      = 2 ^ (m.log2 + e) / 2 ^ (((m'.log2 + 1 : ℕ) : ℤ) + e') := by
        rw [← zpow_sub₀ (by norm_num), Nat.cast_ofNat]
        congr 1
        push_cast
        ring
    _ ≤ (m * 2 ^ e) / (m' * 2 ^ e') := div_le_div₀ hnumpos.le hnum hdenpos hden

theorem targetExponent_zero {e : ℤ} {q : ℚ} (hq : 0 < q) (hlt : q < 1)
    (he : e ≤ spacing (q * 2 ^ e)) :
    Format.binary32.targetExponent (totalExponent 0 e) = spacing (q * 2 ^ e) := by
  have hlog : Int.log 2 (q * 2 ^ e) < e := by
    apply (Int.lt_zpow_iff_log_lt (b := 2) (by norm_num) (mul_pos hq (zpow_two_pos e))).1
    rw [Nat.cast_ofNat]
    exact mul_lt_of_lt_one_left (zpow_two_pos e) hlt
  have hmin : Format.binary32.minExponent = -149 := rfl
  have hbits : (Format.binary32.mantissaBits : ℤ) = 24 := rfl
  have hzero : Nat.log2 0 = 0 := by decide
  unfold spacing at he ⊢
  simp only [Format.targetExponent, totalExponent, hmin, hbits, hzero]
  omega

theorem shiftLeft_div_mul {m m' : ℕ} (hm' : 0 < m') {t e e' : ℤ} (ht : t ≤ e - e') :
    ((m <<< (e - e' - t).toNat : ℕ) : ℚ) / m' * 2 ^ t = m * 2 ^ e / (m' * 2 ^ e') := by
  have hpos : (0 : ℚ) < m' := by exact_mod_cast hm'
  have hexp : e = ((e - e' - t).toNat : ℤ) + (t + e') := by omega
  rw [Nat.shiftLeft_eq, div_mul_eq_mul_div, div_eq_div_iff hpos.ne'
    (mul_pos hpos (zpow_two_pos e')).ne']
  conv_rhs => rw [hexp, zpow_two_natAdd, zpow_add₀ (by norm_num)]
  push_cast
  ring

theorem targetExponent_div {n m' : ℕ} (hn : 0 < n) (hm' : 0 < m') {t : ℤ}
    (ht : t ≤ spacing (n / m' * 2 ^ t)) :
    Format.binary32.targetExponent (totalExponent (n / m') t) = spacing (n / m' * 2 ^ t) := by
  have hpos : (0 : ℚ) < m' := by exact_mod_cast hm'
  rcases Nat.eq_zero_or_pos (n / m') with hzero | hwhole
  · have hlt : (n : ℚ) / m' < 1 := by
      rw [div_lt_one hpos]
      exact_mod_cast (Nat.div_eq_zero_iff_lt hm').1 hzero
    rw [hzero]
    exact targetExponent_zero (div_pos (by exact_mod_cast hn) hpos) hlt ht
  · refine targetExponent_eq t hwhole Nat.cast_div_le ?_
    rw [div_lt_iff₀ hpos, mul_comm]
    exact_mod_cast Nat.lt_mul_div_succ n hm'

/-- The quotient of two finite numbers is the single nearest to their exact quotient. -/
theorem rounded_div {u v : UnpackedFloat} (hu : u.isFinite = true) (hv : v.isFinite = true)
    (hne : value v ≠ 0) : Rounded (UnpackedFloat.div .binary32 u v) (value u / value v) := by
  cases v with
  | notANumber => cases hv
  | infinity s' => cases hv
  | zero s' => exact absurd rfl hne
  | finite s' m' e' hm' =>
    cases u with
    | notANumber => cases hu
    | infinity s => cases hu
    | zero s =>
      rw [show value (.zero s) = 0 from rfl, zero_div]
      exact rounded_zero _
    | finite s m e hm =>
      set t := min (e - e') (Format.binary32.targetExponent (totalExponent m e - totalExponent m' e'))
        with ht
      set n := m <<< (e - e' - t).toNat with hn
      have hresult : UnpackedFloat.div .binary32 (.finite s m e hm) (.finite s' m' e' hm') =
          roundWithAccuracy .binary32 (s / s') (n / m') t (accuracyOfFraction (n % m') m') := rfl
      have hnpos : 0 < n := by
        rw [hn, Nat.shiftLeft_eq]
        exact Nat.mul_pos hm (Nat.two_pow_pos _)
      have hq : (0 : ℚ) < n / m' :=
        div_pos (by exact_mod_cast hnpos) (by exact_mod_cast hm')
      have hunits : (n : ℚ) / m' * 2 ^ t = m * 2 ^ e / (m' * 2 ^ e') :=
        shiftLeft_div_mul hm' (min_le_left _ _)
      have hvalue : value (.finite s m e hm) / value (.finite s' m' e' hm') =
          signum (s / s') * (n / m' * 2 ^ t) := by
        rw [hunits, signum_div, div_mul_div_comm]
        rfl
      -- The exponent was chosen for the least quotient that the first digits allow.
      have hspacing : t ≤ spacing (n / m' * 2 ^ t) := by
        have hlog := le_log_div hm hm' e e'
        have hmin : Format.binary32.minExponent = -149 := rfl
        have hbits : (Format.binary32.mantissaBits : ℤ) = 24 := rfl
        rw [hunits, ht]
        unfold spacing
        simp only [Format.targetExponent, totalExponent, hmin, hbits]
        omega
      rw [hresult, hvalue]
      exact rounded_of_spacing _ (stands_div n hm') (mul_pos hq (zpow_two_pos t))
        (targetExponent_div hnpos hm' hspacing) hspacing

theorem exact_div {x y : Float32} (hx : x.isFinite = true) (hy : y.isFinite = true)
    (hne : exact y ≠ 0) : (x / y).isNaN = false ∧ exact (x / y) = fl (exact x / exact y) :=
  exact_repack (rounded_div hx hy hne)

theorem div_le_div {x x' y : Float32} (hx : x.isFinite = true) (hx' : x'.isFinite = true)
    (hy : y.isFinite = true) (hpos : 0 < exact y) (hxx' : x ≤ x') : x / y ≤ x' / y := by
  obtain ⟨hnum, hexact⟩ := exact_div hx hy hpos.ne'
  obtain ⟨hnum', hexact'⟩ := exact_div hx' hy hpos.ne'
  rw [le_iff_of_number hnum hnum', hexact, hexact']
  exact fl_mono (div_le_div_of_nonneg_right (exact_le hxx') hpos.le)

/-! ## Whole parts -/

theorem toNat_ofNatClamp (n : ℕ) : (UInt32.ofNatClamp n).toNat = min n 4294967295 := by
  unfold UInt32.ofNatClamp
  have hsize : UInt32.size = 4294967296 := rfl
  split_ifs with h
  · rw [UInt32.toNat_ofNatLT]
    omega
  · rw [UInt32.toNat_ofNatLT]
    omega

theorem roundToInt_positive (m : ℕ) (e : ℤ) :
    roundToInt .positive m e = ⌊(m : ℚ) * 2 ^ e⌋₊ := by
  obtain ⟨n, k, hdecrease, hle, hvalue⟩ : ∃ n k, decreaseExponent m e 0 = (n, k) ∧ k ≤ 0 ∧
      (n : ℚ) * 2 ^ k = m * 2 ^ e := by
    refine ⟨_, _, rfl, by omega, ?_⟩
    rw [Nat.shiftLeft_eq]
    conv_rhs => rw [show e = ((e - 0).toNat : ℤ) + (e - (e - 0).toNat) by omega, zpow_two_natAdd]
    push_cast
    ring
  obtain ⟨hstands, -⟩ := (stands_exact n).shiftToExponent hle
  have hbounds := hstands.bounds
  rw [zpow_zero, div_one, hvalue] at hbounds
  have hfloor : ⌊(m : ℚ) * 2 ^ e⌋₊ = (shiftToExponent n k .exact 0).1.mantissa :=
    (Nat.floor_eq_iff (by positivity)).2 hbounds
  rw [hfloor, roundToInt, hdecrease]
  rfl

theorem toNat_toUInt32 {x : Float32} (h : 0 ≤ x) :
    x.toUInt32.toNat = min ⌊exact x⌋₊ 4294967295 := by
  have hnonneg := exact_nonneg h
  have hnumber := (number_of_le h).2
  have hsize : ((UInt32.size : ℤ) - 1).toNat = 4294967295 := rfl
  show (x.toModel.unpack.toUInt32).toNat = _
  rw [isNaN_eq] at hnumber
  unfold exact at hnonneg ⊢
  rw [UnpackedFloat.toUInt32, toNat_ofNatClamp]
  generalize x.toModel.unpack = u at hnonneg hnumber
  cases u with
  | notANumber => cases hnumber
  | infinity s =>
    cases s with
    | negative => norm_num [value, signum] at hnonneg
    | positive =>
      have hfloor : ⌊value (.infinity .positive)⌋₊ = 2 ^ 128 := by
        have hvalue : value (.infinity .positive) = ((2 ^ 128 : ℕ) : ℚ) := by
          norm_num [value, signum]
        rw [hvalue, Nat.floor_natCast]
      rw [hfloor]
      rfl
  | zero s =>
    have hzero : value (.zero s) = 0 := rfl
    rw [hzero, Nat.floor_zero]
    rfl
  | finite s m e hm =>
    cases s with
    | negative =>
      rw [value, signum, neg_one_mul] at hnonneg
      exact absurd (magnitude_pos hm e) (by linarith)
    | positive =>
      rw [value, signum, one_mul, ← Int.toNat_natCast ⌊_⌋₊, ← roundToInt_positive]
      rfl

end ControlVoltage.Single

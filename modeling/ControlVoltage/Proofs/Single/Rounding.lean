import Mathlib.Algebra.Order.Floor.Ring
import Mathlib.Data.Int.Log
import Mathlib.Data.Rat.Floor
import Mathlib.Tactic.Linarith
import Mathlib.Tactic.Ring

/-!
# Rounding of rational numbers

The singles without a bound on their exponent, and the one nearest to a rational number.

* `halfEven` : the whole number nearest to a number; a tie goes to the even one.
* `spacing` : the exponent of the distance between the singles around a positive number.
* `nearest` : the multiple of that distance nearest to a number. It never decreases, is odd, and
  leaves every single alone.
-/

namespace ControlVoltage.Single

/-! ## To a whole number -/

/-- The whole number nearest to `q`; half way between two it is the even one. -/
def halfEven (q : ℚ) : ℤ :=
  if Int.fract q < 1 / 2 then ⌊q⌋
  else if 1 / 2 < Int.fract q then ⌊q⌋ + 1
  else ⌊q⌋ + ⌊q⌋ % 2

@[simp] theorem halfEven_intCast (n : ℤ) : halfEven n = n := by
  simp [halfEven]

theorem floor_le_halfEven (q : ℚ) : ⌊q⌋ ≤ halfEven q := by
  unfold halfEven
  split_ifs <;> omega

theorem halfEven_le_floor_add_one (q : ℚ) : halfEven q ≤ ⌊q⌋ + 1 := by
  unfold halfEven
  split_ifs <;> omega

theorem halfEven_mono {p q : ℚ} (hpq : p ≤ q) : halfEven p ≤ halfEven q := by
  have hfloor : ⌊p⌋ ≤ ⌊q⌋ := Int.floor_mono hpq
  rcases hfloor.lt_or_eq with hlt | heq
  · have hp := halfEven_le_floor_add_one p
    have hq := floor_le_halfEven q
    omega
  · have hfract : Int.fract p ≤ Int.fract q := by
      have hp := Int.self_sub_floor p
      have hq := Int.self_sub_floor q
      rw [heq] at hp
      linarith
    unfold halfEven
    rw [heq]
    split_ifs <;> first | omega | (exfalso; linarith)

theorem halfEven_nonneg {q : ℚ} (hq : 0 ≤ q) : 0 ≤ halfEven q := by
  have h := halfEven_mono hq
  rwa [← Int.cast_zero, halfEven_intCast] at h

theorem halfEven_le {q : ℚ} {n : ℤ} (h : q ≤ n) : halfEven q ≤ n := by
  have := halfEven_mono h
  rwa [halfEven_intCast] at this

theorem le_halfEven {q : ℚ} {n : ℤ} (h : n ≤ q) : n ≤ halfEven q := by
  have := halfEven_mono h
  rwa [halfEven_intCast] at this

/-! ## To a single -/

/-- The exponent of the last of the 24 binary digits of a positive number, but at least `-149`. -/
def spacing (q : ℚ) : ℤ :=
  max (Int.log 2 q - 23) (-149)

/-- The multiple of its spacing nearest to a number that is not negative. -/
def near (q : ℚ) : ℚ :=
  halfEven (q / 2 ^ spacing q) * 2 ^ spacing q

/-- The single nearest to a number, as if there was no largest one. -/
def nearest (q : ℚ) : ℚ :=
  if 0 ≤ q then near q else -near (-q)

theorem zpow_two_pos (e : ℤ) : (0 : ℚ) < 2 ^ e :=
  zpow_pos (by norm_num) e

theorem zpow_two_le {d e : ℤ} (h : d ≤ e) : (2 : ℚ) ^ d ≤ 2 ^ e :=
  zpow_le_zpow_right₀ (by norm_num) h

theorem zpow_two_natAdd (n : ℕ) (e : ℤ) : (2 : ℚ) ^ (n + e) = 2 ^ n * 2 ^ e := by
  rw [zpow_add₀ (by norm_num), zpow_natCast]

theorem near_zero : near 0 = 0 := by
  have h : halfEven 0 = 0 := halfEven_intCast 0
  simp [near, h]

theorem near_nonneg {q : ℚ} (hq : 0 ≤ q) : 0 ≤ near q := by
  have hpos := zpow_two_pos (spacing q)
  have hhalf := halfEven_nonneg (div_nonneg hq hpos.le)
  have hcast : (0 : ℚ) ≤ halfEven (q / 2 ^ spacing q) := by exact_mod_cast hhalf
  exact mul_nonneg hcast hpos.le

theorem lt_spacing (q : ℚ) : q / 2 ^ spacing q < 2 ^ 24 := by
  have hlog : q < 2 ^ (Int.log 2 q + 1) := by
    have := Int.lt_zpow_succ_log_self (b := 2) (by norm_num) q
    exact_mod_cast this
  have hle : (2 : ℚ) ^ (Int.log 2 q + 1) ≤ 2 ^ (((24 : ℕ) : ℤ) + spacing q) := by
    apply zpow_two_le
    unfold spacing
    omega
  rw [div_lt_iff₀ (zpow_two_pos _), ← zpow_two_natAdd]
  exact hlog.trans_le hle

theorem spacing_le {q : ℚ} (hq : 0 < q) (h : spacing q ≠ -149) : 2 ^ 23 ≤ q / 2 ^ spacing q := by
  have hlog : (2 : ℚ) ^ Int.log 2 q ≤ q := by
    have := Int.zpow_log_le_self (b := 2) (by norm_num) hq
    exact_mod_cast this
  have heq : ((23 : ℕ) : ℤ) + spacing q = Int.log 2 q := by
    unfold spacing at h ⊢
    omega
  rw [le_div_iff₀ (zpow_two_pos _), ← zpow_two_natAdd, heq]
  exact hlog

theorem spacing_mono {p q : ℚ} (hp : 0 < p) (hpq : p ≤ q) : spacing p ≤ spacing q := by
  have hlog := Int.log_mono_right (b := 2) hp hpq
  unfold spacing
  omega

theorem near_mono {p q : ℚ} (hp : 0 ≤ p) (hpq : p ≤ q) : near p ≤ near q := by
  rcases hp.eq_or_lt with rfl | hpos
  · rw [near_zero]
    exact near_nonneg hpq
  -- With different spacings, `2 ^ 24` times the smaller one stands between the two results; with one
  -- spacing, both are multiples of the same distance.
  rcases (spacing_mono hpos hpq).lt_or_eq with hlt | heq
  · have hspacing : spacing q ≠ -149 := by
      have : -149 ≤ spacing p := le_max_right _ _
      omega
    have hsmall : halfEven (p / 2 ^ spacing p) ≤ 2 ^ 24 := by
      apply halfEven_le
      exact_mod_cast (lt_spacing p).le
    have hlarge : 2 ^ 23 ≤ halfEven (q / 2 ^ spacing q) := by
      apply le_halfEven
      exact_mod_cast spacing_le (hpos.trans_le hpq) hspacing
    have hsmallq : (halfEven (p / 2 ^ spacing p) : ℚ) ≤ 2 ^ 24 := by exact_mod_cast hsmall
    have hlargeq : (2 : ℚ) ^ 23 ≤ halfEven (q / 2 ^ spacing q) := by exact_mod_cast hlarge
    calc near p ≤ 2 ^ 24 * 2 ^ spacing p :=
          mul_le_mul_of_nonneg_right hsmallq (zpow_two_pos _).le
      _ = 2 ^ (((24 : ℕ) : ℤ) + spacing p) := (zpow_two_natAdd _ _).symm
      _ ≤ 2 ^ (((23 : ℕ) : ℤ) + spacing q) := zpow_two_le (by omega)
      _ = 2 ^ 23 * 2 ^ spacing q := zpow_two_natAdd _ _
      _ ≤ near q := mul_le_mul_of_nonneg_right hlargeq (zpow_two_pos _).le
  · have hdiv : p / 2 ^ spacing q ≤ q / 2 ^ spacing q :=
      div_le_div_of_nonneg_right hpq (zpow_two_pos _).le
    have hround : (halfEven (p / 2 ^ spacing q) : ℚ) ≤ halfEven (q / 2 ^ spacing q) := by
      exact_mod_cast halfEven_mono hdiv
    unfold near
    rw [heq]
    exact mul_le_mul_of_nonneg_right hround (zpow_two_pos _).le

theorem nearest_neg (q : ℚ) : nearest (-q) = -nearest q := by
  unfold nearest
  rcases lt_trichotomy q 0 with h | rfl | h
  · rw [if_pos (by linarith), if_neg (by linarith), neg_neg]
  · simp [near_zero]
  · rw [if_neg (by linarith), if_pos h.le, neg_neg]

theorem nearest_mono : Monotone nearest := by
  intro p q hpq
  unfold nearest
  split_ifs with hp hq
  · exact near_mono hp hpq
  · linarith
  · have h₁ := near_nonneg (show 0 ≤ -p by linarith)
    have h₂ := near_nonneg (show 0 ≤ q by assumption)
    linarith
  · have := near_mono (show 0 ≤ -q by linarith) (show -q ≤ -p by linarith)
    linarith

end ControlVoltage.Single

import ControlVoltage.Proofs.Single.Exactness

/-!
# How far rounding moves a number

A number is rounded to one of the two singles around it, and so it is moved by at most half of their
distance. Below a power of two this distance has a bound.

* `abs_nearest_sub_le` : rounding moves a number by at most half of its spacing.
* `abs_fl_sub_le` : below `2 ^ k` this is at most `2 ^ (k - 25)`.
* `abs_add_sub_le`, `abs_mul_sub_le` : sums and products that are not too large.
* `abs_fl_sub_le_mul` : above the least spacing, a part of the number itself.
* `abs_div_mul_sub_le` : a quotient times its divisor.
* `unpack_eq_of_exact_eq`, `add_eq_add` : singles that stand for the same number.
-/

namespace ControlVoltage.Single

open Float.Model Float.Model.UnpackedFloat

/-! ## Distance from the nearest single -/

theorem abs_halfEven_sub_le (q : ℚ) : |(halfEven q : ℚ) - q| ≤ 1 / 2 := by
  have hfract := Int.self_sub_floor q
  have hnonneg := Int.fract_nonneg q
  have hlt := Int.fract_lt_one q
  unfold halfEven
  split_ifs with hbelow habove
  · rw [abs_le]
    constructor <;> linarith
  · push_cast
    rw [abs_le]
    constructor <;> linarith
  · have hhalf : Int.fract q = 1 / 2 := le_antisymm (not_lt.1 habove) (not_lt.1 hbelow)
    rcases Int.emod_two_eq_zero_or_one ⌊q⌋ with hparity | hparity <;> rw [hparity] <;> push_cast <;>
      rw [abs_le] <;> constructor <;> linarith

theorem abs_near_sub_le (q : ℚ) : |near q - q| ≤ 2 ^ spacing q / 2 := by
  have hpos := zpow_two_pos (spacing q)
  have hunits : near q - q = (halfEven (q / 2 ^ spacing q) - q / 2 ^ spacing q) * 2 ^ spacing q := by
    rw [near, sub_mul, div_mul_cancel₀ _ hpos.ne']
  calc |near q - q| = |(halfEven (q / 2 ^ spacing q) : ℚ) - q / 2 ^ spacing q| * 2 ^ spacing q := by
        rw [hunits, abs_mul, abs_of_pos hpos]
    _ ≤ 1 / 2 * 2 ^ spacing q := mul_le_mul_of_nonneg_right (abs_halfEven_sub_le _) hpos.le
    _ = 2 ^ spacing q / 2 := by ring

theorem abs_nearest_sub_le (q : ℚ) : |nearest q - q| ≤ 2 ^ spacing |q| / 2 := by
  unfold nearest
  split_ifs with hq
  · rw [abs_of_nonneg hq]
    exact abs_near_sub_le q
  · have hflip : -near (-q) - q = -(near (-q) - -q) := by ring
    rw [abs_of_neg (not_le.1 hq), hflip, abs_neg]
    exact abs_near_sub_le (-q)

theorem abs_saturate_sub_le {p q : ℚ} (hq : |q| ≤ 2 ^ 128) : |saturate p - q| ≤ |p - q| := by
  obtain ⟨hlow, hhigh⟩ := abs_le.1 hq
  have hup := le_abs_self (p - q)
  have hdown := neg_abs_le (p - q)
  unfold saturate
  rw [abs_le]
  rcases le_total p (2 ^ 128) with hmost | hmost
  · rw [min_eq_left hmost]
    rcases le_total (-2 ^ 128) p with hleast | hleast
    · rw [max_eq_right hleast]
      exact ⟨hdown, hup⟩
    · rw [max_eq_left hleast]
      constructor <;> linarith
  · rw [min_eq_right hmost, max_eq_right (by norm_num)]
    constructor <;> linarith

theorem spacing_le_of_lt {q : ℚ} {k : ℤ} (hleast : -125 ≤ k) (hpos : 0 < q) (h : q < 2 ^ k) :
    spacing q ≤ k - 24 := by
  have hlog : Int.log 2 q < k :=
    (Int.lt_zpow_iff_log_lt (b := 2) (by norm_num) hpos).1 (by exact_mod_cast h)
  unfold spacing
  omega

theorem abs_fl_sub_le {q : ℚ} {k : ℤ} (hleast : -125 ≤ k) (hmost : k ≤ 128) (h : |q| < 2 ^ k) :
    |fl q - q| ≤ 2 ^ (k - 25) := by
  have hscale : (2 : ℚ) ^ (k - 24) = 2 * 2 ^ (k - 25) := by
    rw [← zpow_one_add₀ (by norm_num)]
    congr 1
    ring
  rcases eq_or_ne q 0 with rfl | hne
  · rw [fl_zero, sub_zero, abs_zero]
    exact (zpow_two_pos _).le
  · calc |fl q - q| ≤ |nearest q - q| :=
          abs_saturate_sub_le (h.le.trans (by exact_mod_cast zpow_two_le hmost))
      _ ≤ 2 ^ spacing |q| / 2 := abs_nearest_sub_le q
      _ ≤ 2 ^ (k - 24) / 2 := by
          have := zpow_two_le (spacing_le_of_lt hleast (abs_pos.2 hne) h)
          linarith
      _ = 2 ^ (k - 25) := by
          rw [hscale]
          ring

theorem spacing_eq_of_le {q : ℚ} (h : 2 ^ (-126 : ℤ) ≤ q) : spacing q = Int.log 2 q - 23 := by
  have hlog : -126 ≤ Int.log 2 q :=
    (Int.zpow_le_iff_le_log (b := 2) (by norm_num) ((zpow_two_pos _).trans_le h)).1 (by exact_mod_cast h)
  unfold spacing
  omega

theorem abs_fl_sub_le_mul {q : ℚ} (hleast : 2 ^ (-126 : ℤ) ≤ q) (hmost : q ≤ 2 ^ 128) :
    |fl q - q| ≤ q * 2 ^ (-24 : ℤ) := by
  have hpos : 0 < q := (zpow_two_pos _).trans_le hleast
  have habs : |q| = q := abs_of_pos hpos
  have hlog : (2 : ℚ) ^ Int.log 2 q ≤ q := by
    exact_mod_cast Int.zpow_log_le_self (b := 2) (by norm_num) hpos
  calc |fl q - q| ≤ |nearest q - q| := abs_saturate_sub_le (by rwa [habs])
    _ ≤ 2 ^ spacing q / 2 := by
        have h := abs_nearest_sub_le q
        rwa [habs] at h
    _ = 2 ^ Int.log 2 q * 2 ^ (-24 : ℤ) := by
        rw [spacing_eq_of_le hleast, sub_eq_add_neg, zpow_add₀ (by norm_num), mul_div_assoc]
        norm_num
    _ ≤ q * 2 ^ (-24 : ℤ) := mul_le_mul_of_nonneg_right hlog (zpow_two_pos _).le

/-! ## Results -/

variable {x y : Float32}

theorem abs_exact_sub_le {q : ℚ} {k : ℤ} (hnumber : x.isNaN = false) (hexact : exact x = fl q)
    (hleast : -125 ≤ k) (hmost : k ≤ 127) (h : |q| < 2 ^ k) :
    x.isFinite = true ∧ |exact x - q| ≤ 2 ^ (k - 25) := by
  have hrounded := abs_fl_sub_le hleast (by omega) h
  have hstep : (2 : ℚ) ^ (k - 25) ≤ 2 ^ k := zpow_two_le (by omega)
  have hdouble : (2 : ℚ) ^ k + 2 ^ k ≤ 2 ^ (128 : ℤ) := by
    rw [← two_mul, ← zpow_one_add₀ (by norm_num)]
    exact zpow_two_le (by omega)
  rw [← hexact] at hrounded
  refine ⟨(isFinite_iff hnumber).2 ?_, hrounded⟩
  calc |exact x| ≤ |exact x - q| + |q| := by
        have := abs_add_le (exact x - q) q
        rwa [sub_add_cancel] at this
    _ < 2 ^ k + 2 ^ k := by linarith
    _ ≤ 2 ^ 128 := by exact_mod_cast hdouble

theorem abs_add_sub_le {k : ℤ} (hx : x.isFinite = true) (hy : y.isFinite = true) (hleast : -125 ≤ k)
    (hmost : k ≤ 127) (h : |exact x + exact y| < 2 ^ k) :
    (x + y).isFinite = true ∧ |exact (x + y) - (exact x + exact y)| ≤ 2 ^ (k - 25) :=
  abs_exact_sub_le (exact_add hx hy).1 (exact_add hx hy).2 hleast hmost h

theorem abs_mul_sub_le {k : ℤ} (hx : x.isFinite = true) (hy : y.isFinite = true) (hleast : -125 ≤ k)
    (hmost : k ≤ 127) (h : |exact x * exact y| < 2 ^ k) :
    (x * y).isFinite = true ∧ |exact (x * y) - exact x * exact y| ≤ 2 ^ (k - 25) :=
  abs_exact_sub_le (exact_mul hx hy).1 (exact_mul hx hy).2 hleast hmost h

/-! ## Two roundings -/

theorem abs_sub_le_of_parts {a b c ε : ℚ} (hε : 0 ≤ ε) (hab : |b - a| ≤ a * ε)
    (hbc : |c - b| ≤ b * ε) : |c - a| ≤ a * (2 * ε + ε * ε) := by
  have hb : b ≤ a + a * ε := by
    have := (abs_le.1 hab).2
    linarith
  calc |c - a| ≤ |c - b| + |b - a| := abs_sub_le c b a
    _ ≤ (a + a * ε) * ε + a * ε := add_le_add (hbc.trans (mul_le_mul_of_nonneg_right hb hε)) hab
    _ = a * (2 * ε + ε * ε) := by ring

theorem abs_div_sub_le (hx : x.isFinite = true) (hy : y.isFinite = true) (hypos : 0 < exact y)
    (hleast : 2 ^ (-126 : ℤ) ≤ exact x / exact y) (hmost : exact x / exact y ≤ 2 ^ 127) :
    (x / y).isFinite = true ∧
      |exact (x / y) - exact x / exact y| ≤ exact x / exact y * 2 ^ (-24 : ℤ) := by
  obtain ⟨hnumber, hquotient⟩ := exact_div hx hy hypos.ne'
  have hrounded : |exact (x / y) - exact x / exact y| ≤ exact x / exact y * 2 ^ (-24 : ℤ) := by
    rw [hquotient]
    apply abs_fl_sub_le_mul hleast
    linarith
  have hqpos : 0 < exact x / exact y := (zpow_two_pos _).trans_le hleast
  refine ⟨?_, hrounded⟩
  obtain ⟨hlow, hhigh⟩ := abs_le.1 hrounded
  rw [isFinite_iff hnumber, abs_lt]
  norm_num at hlow hhigh hmost ⊢
  constructor <;> linarith

/-- A quotient times its divisor, where neither is very small or very large, is off by two `2 ^ 24`th
parts and hardly more: each of the two roundings adds one. -/
theorem abs_div_mul_sub_le (hx : x.isFinite = true) (hy : y.isFinite = true) (hypos : 0 < exact y)
    (hleast : 2 ^ (-125 : ℤ) ≤ exact x) (hmost : exact x ≤ 2 ^ 127)
    (hleast' : 2 ^ (-126 : ℤ) ≤ exact x / exact y) (hmost' : exact x / exact y ≤ 2 ^ 127) :
    |exact (x / y * y) - exact x| ≤
      exact x * (2 * 2 ^ (-24 : ℤ) + 2 ^ (-24 : ℤ) * 2 ^ (-24 : ℤ)) := by
  obtain ⟨hfinite, hquotient⟩ := abs_div_sub_le hx hy hypos hleast' hmost'
  have hundone : |exact (x / y) * exact y - exact x| ≤ exact x * 2 ^ (-24 : ℤ) := by
    have hscaled : exact (x / y) * exact y - exact x =
        (exact (x / y) - exact x / exact y) * exact y := by
      rw [sub_mul, div_mul_cancel₀ _ hypos.ne']
    calc |exact (x / y) * exact y - exact x| = |exact (x / y) - exact x / exact y| * exact y := by
          rw [hscaled, abs_mul, abs_of_pos hypos]
      _ ≤ exact x / exact y * 2 ^ (-24 : ℤ) * exact y :=
          mul_le_mul_of_nonneg_right hquotient hypos.le
      _ = exact x * 2 ^ (-24 : ℤ) := by rw [mul_right_comm, div_mul_cancel₀ _ hypos.ne']
  have hxpos : 0 < exact x := (zpow_two_pos _).trans_le hleast
  rw [(exact_mul hfinite hy).2]
  refine abs_sub_le_of_parts (zpow_two_pos _).le hundone ?_
  generalize exact (x / y) * exact y = p at hundone
  have hbounds : exact x / 2 ≤ p ∧ p ≤ 2 * exact x := by
    obtain ⟨hlow, hhigh⟩ := abs_le.1 hundone
    norm_num at hlow hhigh
    constructor <;> linarith
  have hhalf : (2 : ℚ) ^ (-125 : ℤ) = 2 * 2 ^ (-126 : ℤ) := by
    rw [← zpow_one_add₀ (by norm_num)]
    norm_num
  apply abs_fl_sub_le_mul <;> linarith

/-! ## Equal numbers -/

theorem unpack_eq_of_exact_eq (hx : x.isFinite = true) (hy : y.isFinite = true)
    (hne : exact x ≠ 0) (h : exact x = exact y) : x.toModel.unpack = y.toModel.unpack := by
  have hcanonical := canonical x
  have hcanonical' := canonical y
  rw [isFinite_eq] at hx hy
  unfold exact at hne h
  generalize x.toModel.unpack = u at hx hne h hcanonical
  generalize y.toModel.unpack = w at hy h hcanonical'
  cases u with
  | notANumber => cases hx
  | infinity s => cases hx
  | zero s => exact absurd rfl hne
  | finite s m e hm =>
    cases w with
    | notANumber => cases hy
    | infinity s' => cases hy
    | zero s' => exact absurd h hne
    | finite s' m' e' hm' =>
      have hpos := magnitude_pos hm e
      have hpos' := magnitude_pos hm' e'
      obtain ⟨rfl, hmagnitude⟩ : s = s' ∧ (m : ℚ) * 2 ^ e = m' * 2 ^ e' := by
        cases s <;> cases s' <;> simp only [value, signum] at h <;>
          first | exact ⟨rfl, by linarith⟩ | linarith
      have hcompare := compare_magnitude hcanonical hcanonical'
      rw [compare_eq_iff_eq.2 hmagnitude, eq_comm, Ordering.then_eq_eq, compare_eq_iff_eq,
        compare_eq_iff_eq] at hcompare
      obtain ⟨rfl, rfl⟩ := hcompare
      rfl

theorem exists_unpack_zero (hx : x.isFinite = true) (h : exact x = 0) :
    ∃ s, x.toModel.unpack = .zero s := by
  rw [isFinite_eq] at hx
  unfold exact at h
  generalize x.toModel.unpack = u at hx h
  cases u with
  | notANumber => cases hx
  | infinity s => cases hx
  | zero s => exact ⟨s, rfl⟩
  | finite s m e hm =>
    have hpos := magnitude_pos hm e
    cases s <;> simp only [value, signum] at h <;> linarith

theorem add_eq_add {z : Float32} (hx : x.isFinite = true) (hy : y.isFinite = true)
    (h : exact x = exact y) (hz : z = 0 ∨ exact z ≠ 0) : x + z = y + z := by
  have hsums : UnpackedFloat.add .binary32 x.toModel.unpack z.toModel.unpack =
      UnpackedFloat.add .binary32 y.toModel.unpack z.toModel.unpack := by
    rcases eq_or_ne (exact x) 0 with hzero | hne
    · obtain ⟨s, hs⟩ := exists_unpack_zero hx hzero
      obtain ⟨s', hs'⟩ := exists_unpack_zero hy (h ▸ hzero)
      rw [hs, hs']
      rcases hz with rfl | hz
      · cases s <;> cases s' <;> rfl
      · unfold exact at hz
        generalize z.toModel.unpack = w at hz
        cases w with
        | zero t => exact absurd rfl hz
        | _ => rfl
    · rw [unpack_eq_of_exact_eq hx hy hne h]
  exact congrArg (fun u => Float32.ofModel (.pack u)) hsums

end ControlVoltage.Single

import ControlVoltage.Proofs.Single.Compare
import ControlVoltage.Proofs.Single.Packing

/-!
# Arithmetic of singles

Numbers are compared, added, subtracted and multiplied as the rational numbers that they stand for;
a result is rounded to the nearest single, and counts as infinite from `2 ^ 128` on.

* `exact` : the number a single stands for.
* `fl` : the number that a result stands for. It never decreases.
* `exact_add`, `exact_sub`, `exact_mul` : the operations on finite numbers.
* `clamp_mem` : a clamped number is where the bounds are.
-/

namespace ControlVoltage.Single

open Float.Model Float.Model.UnpackedFloat

/-- The number a single stands for; `2 ^ 128` for infinity and 0 for a NaN. -/
def exact (x : Float32) : ℚ := value x.toModel.unpack

/-- A number rounded to a single. -/
def fl (q : ℚ) : ℚ := saturate (nearest q)

theorem fl_mono : Monotone fl := saturate_mono.comp nearest_mono

theorem fits (x : Float32) : Fits x.toModel.unpack := fits_unpack _

theorem canonical (x : Float32) : Canonical x.toModel.unpack := (fits x).canonical

/-! ## Comparison -/

theorem compare_of_isNaN {u v : UnpackedFloat} (h : u.isNaN = true ∨ v.isNaN = true) :
    u.compare v = none := by
  rcases h with h | h
  · cases u <;> first | rfl | cases h
  · cases v with
    | notANumber => cases u <;> rfl
    | _ => cases h

theorem le_iff_of_number {x y : Float32} (hx : x.isNaN = false) (hy : y.isNaN = false) :
    x ≤ y ↔ exact x ≤ exact y := by
  rw [isNaN_eq] at hx hy
  rw [le_iff_compare, compare_eq_compare_value hx hy (fits x) (fits y), Option.any_some,
    ← Ordering.ne_gt_iff_isLE]
  exact compare_le_iff_le

theorem lt_iff_of_number {x y : Float32} (hx : x.isNaN = false) (hy : y.isNaN = false) :
    x < y ↔ exact x < exact y := by
  rw [isNaN_eq] at hx hy
  rw [lt_iff_compare, compare_eq_compare_value hx hy (fits x) (fits y), Option.some_inj,
    compare_lt_iff_lt]
  rfl

theorem number_of_le {x y : Float32} (h : x ≤ y) : x.isNaN = false ∧ y.isNaN = false := by
  rw [le_iff_compare] at h
  rw [isNaN_eq, isNaN_eq, ← Bool.not_eq_true, ← Bool.not_eq_true, ← not_or]
  intro hnan
  rw [compare_of_isNaN hnan] at h
  cases h

theorem not_lt_of_isNaN {x y : Float32} (h : x.isNaN = true ∨ y.isNaN = true) : ¬ x < y := by
  rw [isNaN_eq, isNaN_eq] at h
  rw [lt_iff_compare, compare_of_isNaN h]
  exact fun h => by cases h

theorem le_of_lt {x y : Float32} (h : x < y) : x ≤ y := by
  rw [lt_iff_compare] at h
  rw [le_iff_compare, h]
  rfl

theorem le_refl_of_number {x : Float32} (h : x.isNaN = false) : x ≤ x :=
  (le_iff_of_number h h).2 le_rfl

theorem le_trans_of_le {x y z : Float32} (hxy : x ≤ y) (hyz : y ≤ z) : x ≤ z := by
  obtain ⟨hx, hy⟩ := number_of_le hxy
  obtain ⟨-, hz⟩ := number_of_le hyz
  rw [le_iff_of_number hx hz]
  exact ((le_iff_of_number hx hy).1 hxy).trans ((le_iff_of_number hy hz).1 hyz)

theorem le_of_not_le {x y : Float32} (hx : x.isNaN = false) (hy : y.isNaN = false) (h : ¬ x ≤ y) :
    y ≤ x := by
  rw [le_iff_of_number hx hy] at h
  rw [le_iff_of_number hy hx]
  exact (lt_of_not_ge h).le

theorem le_of_not_lt {x y : Float32} (hx : x.isNaN = false) (hy : y.isNaN = false) (h : ¬ x < y) :
    y ≤ x := by
  rw [lt_iff_of_number hx hy] at h
  rw [le_iff_of_number hy hx]
  exact not_lt.1 h

theorem lt_of_not_le {x y : Float32} (hx : x.isNaN = false) (hy : y.isNaN = false) (h : ¬ x ≤ y) :
    y < x := by
  rw [le_iff_of_number hx hy] at h
  rw [lt_iff_of_number hy hx]
  exact not_le.1 h

theorem clamp_mem {p q lo hi x : Float32} (hx : x.isNaN = false) (hplo : p ≤ lo) (hloq : lo ≤ q)
    (hphi : p ≤ hi) (hhiq : hi ≤ q) : p ≤ clamp lo hi x ∧ clamp lo hi x ≤ q := by
  obtain ⟨-, hlo⟩ := number_of_le hplo
  obtain ⟨-, hhi⟩ := number_of_le hphi
  unfold clamp
  by_cases hbelow : x < lo
  · simp only [if_pos hbelow]
    split_ifs
    · exact ⟨hphi, hhiq⟩
    · exact ⟨hplo, hloq⟩
  · simp only [if_neg hbelow]
    split_ifs with habove
    · exact ⟨hphi, hhiq⟩
    · exact ⟨le_trans_of_le hplo (le_of_not_lt hx hlo hbelow),
        le_trans_of_le (le_of_not_lt hhi hx habove) hhiq⟩

theorem not_lt_of_le {x y : Float32} (h : y ≤ x) : ¬ x < y := by
  obtain ⟨hy, hx⟩ := number_of_le h
  rw [le_iff_of_number hy hx] at h
  rw [lt_iff_of_number hx hy]
  exact not_lt.2 h

theorem clamp_of_mem {lo hi x : Float32} (hlo : lo ≤ x) (hhi : x ≤ hi) : clamp lo hi x = x := by
  unfold clamp
  simp only [if_neg (not_lt_of_le hlo), if_neg (not_lt_of_le hhi)]

theorem clamp_of_isNaN {lo hi x : Float32} (h : x.isNaN = true) : clamp lo hi x = x := by
  have hbelow : ¬ x < lo := not_lt_of_isNaN (Or.inl h)
  have habove : ¬ hi < x := not_lt_of_isNaN (Or.inr h)
  unfold clamp
  simp only [if_neg hbelow, if_neg habove]

theorem exact_clamp {lo hi x : Float32} (hx : x.isNaN = false) (hle : lo ≤ hi) :
    exact (clamp lo hi x) = max (exact lo) (min (exact hi) (exact x)) := by
  obtain ⟨hlo, hhi⟩ := number_of_le hle
  have hbounds := (le_iff_of_number hlo hhi).1 hle
  by_cases hbelow : x < lo
  · have hx' := (lt_iff_of_number hx hlo).1 hbelow
    simp only [clamp, if_pos hbelow, if_neg (not_lt_of_le hle)]
    rw [min_eq_right (hx'.le.trans hbounds), max_eq_left hx'.le]
  · have hx' := not_lt.1 (mt (lt_iff_of_number hx hlo).2 hbelow)
    simp only [clamp, if_neg hbelow]
    split_ifs with habove
    · have hhi' := (lt_iff_of_number hhi hx).1 habove
      rw [min_eq_left hhi'.le, max_eq_right hbounds]
    · have hhi' := not_lt.1 (mt (lt_iff_of_number hhi hx).2 habove)
      rw [min_eq_right hhi', max_eq_right hx']

theorem clamp_le_clamp {lo hi x y : Float32} (hle : lo ≤ hi) (hxy : x ≤ y) :
    clamp lo hi x ≤ clamp lo hi y := by
  obtain ⟨hx, hy⟩ := number_of_le hxy
  obtain ⟨hlo, hhi⟩ := number_of_le hle
  have hlorefl := le_refl_of_number hlo
  have hhirefl := le_refl_of_number hhi
  have hnum := (number_of_le (clamp_mem hx hlorefl hle hle hhirefl).1).2
  have hnum' := (number_of_le (clamp_mem hy hlorefl hle hle hhirefl).1).2
  rw [le_iff_of_number hnum hnum', exact_clamp hx hle, exact_clamp hy hle]
  exact max_le_max le_rfl (min_le_min le_rfl ((le_iff_of_number hx hy).1 hxy))

/-! ## Finite numbers -/

theorem number_of_isFinite {x : Float32} (h : x.isFinite = true) : x.isNaN = false := by
  rw [isFinite_eq] at h
  rw [isNaN_eq]
  generalize x.toModel.unpack = u at h
  cases u <;> first | rfl | cases h

theorem isFinite_iff {x : Float32} (hx : x.isNaN = false) :
    x.isFinite = true ↔ |exact x| < 2 ^ 128 := by
  have hfits := fits x
  rw [isNaN_eq] at hx
  rw [isFinite_eq, exact]
  generalize x.toModel.unpack = u at hx hfits
  have habs (s : Sign) {q : ℚ} (hq : 0 ≤ q) : |signum s * q| = q := by
    cases s <;> simp [signum, abs_of_nonneg hq]
  cases u with
  | notANumber => cases hx
  | infinity s =>
    rw [value, habs s (by norm_num)]
    exact ⟨fun h => (Bool.false_ne_true h).elim, fun h => absurd h (lt_irrefl _)⟩
  | zero s =>
    rw [value, abs_zero]
    exact ⟨fun _ => by norm_num, fun _ => rfl⟩
  | finite s m e hm =>
    rw [value, habs s (magnitude_pos hm e).le]
    exact ⟨fun _ => magnitude_lt hfits.1.1 hfits.2, fun _ => rfl⟩

theorem abs_exact_le (x : Float32) : |exact x| ≤ 2 ^ 128 := by
  by_cases hnan : x.isNaN = true
  · rw [isNaN_eq] at hnan
    rw [exact]
    generalize x.toModel.unpack = u at hnan
    cases u with
    | notANumber => norm_num [value]
    | _ => cases hnan
  · by_cases hfinite : x.isFinite = true
    · exact ((isFinite_iff (Bool.eq_false_of_not_eq_true hnan)).1 hfinite).le
    · rw [isNaN_eq] at hnan
      rw [isFinite_eq] at hfinite
      rw [exact]
      generalize x.toModel.unpack = u at hnan hfinite
      cases u with
      | infinity s => cases s <;> norm_num [value, signum]
      | notANumber => exact absurd rfl hnan
      | zero s => exact absurd rfl hfinite
      | finite s m e hm => exact absurd rfl hfinite

/-! ## Operations -/

theorem exact_repack {u : UnpackedFloat} {q : ℚ} (h : Rounded u q) :
    (repack u).isNaN = false ∧ value (repack u) = fl q :=
  ⟨isNaN_repack h.canonical h.finite, by rw [value_repack h.canonical, h.value, fl]⟩

theorem exact_add {x y : Float32} (hx : x.isFinite = true) (hy : y.isFinite = true) :
    (x + y).isNaN = false ∧ exact (x + y) = fl (exact x + exact y) :=
  exact_repack (rounded_add hx hy (canonical x) (canonical y))

theorem exact_sub {x y : Float32} (hx : x.isFinite = true) (hy : y.isFinite = true) :
    (x - y).isNaN = false ∧ exact (x - y) = fl (exact x - exact y) :=
  exact_repack (rounded_sub hx hy (canonical x) (canonical y))

theorem exact_mul {x y : Float32} (hx : x.isFinite = true) (hy : y.isFinite = true) :
    (x * y).isNaN = false ∧ exact (x * y) = fl (exact x * exact y) :=
  exact_repack (rounded_mul hx hy (canonical x) (canonical y))

theorem number_add {x y : Float32} (hx : x.isFinite = true) (hy : y.isNaN = false) :
    (x + y).isNaN = false := by
  by_cases hfinite : y.isFinite = true
  · exact (exact_add hx hfinite).1
  · rw [isFinite_eq] at hx hfinite
    rw [isNaN_eq] at hy
    change (repack (UnpackedFloat.add .binary32 x.toModel.unpack y.toModel.unpack)).isNaN = false
    generalize x.toModel.unpack = u at hx
    generalize y.toModel.unpack = v at hy hfinite
    cases v with
    | notANumber => cases hy
    | zero s => exact absurd rfl hfinite
    | finite s m e hm => exact absurd rfl hfinite
    | infinity s =>
      have hadd : UnpackedFloat.add .binary32 u (.infinity s) = .infinity s := by
        cases u <;> first | rfl | cases hx
      rw [hadd, repack_infinity]
      rfl

theorem exact_add_of_infinite {x y : Float32} (hx : x.isFinite = true) (hy : y.isNaN = false)
    (hinfinite : y.isFinite = false) : exact (x + y) = exact y := by
  rw [isFinite_eq] at hx hinfinite
  rw [isNaN_eq] at hy
  change value (repack (UnpackedFloat.add .binary32 x.toModel.unpack y.toModel.unpack)) =
    value y.toModel.unpack
  generalize x.toModel.unpack = u at hx
  generalize y.toModel.unpack = v at hy hinfinite
  cases v with
  | notANumber => cases hy
  | zero s => cases hinfinite
  | finite s m e hm => cases hinfinite
  | infinity s =>
    have hadd : UnpackedFloat.add .binary32 u (.infinity s) = .infinity s := by
      cases u <;> first | rfl | cases hx
    rw [hadd, repack_infinity]

theorem add_le_add_left {x y y' : Float32} (hx : x.isFinite = true) (h : y ≤ y') :
    x + y ≤ x + y' := by
  obtain ⟨hy, hy'⟩ := number_of_le h
  have hle := (le_iff_of_number hy hy').1 h
  have hsum := abs_le.1 (abs_exact_le (x + y))
  have hsum' := abs_le.1 (abs_exact_le (x + y'))
  rw [le_iff_of_number (number_add hx hy) (number_add hx hy')]
  cases hfinite : y.isFinite with
  | true =>
    cases hfinite' : y'.isFinite with
    | true =>
      rw [(exact_add hx hfinite).2, (exact_add hx hfinite').2]
      exact fl_mono (by linarith)
    | false =>
      -- The larger one can only be infinite upwards, where there is no larger sum.
      have hlarge := mt (isFinite_iff hy').2 (by rw [hfinite']; exact Bool.false_ne_true)
      have hsmall := abs_lt.1 ((isFinite_iff hy).1 hfinite)
      rw [exact_add_of_infinite hx hy' hfinite']
      rcases le_abs.1 (not_lt.1 hlarge) with hup | hdown <;> linarith
  | false =>
    have hlarge := mt (isFinite_iff hy).2 (by rw [hfinite]; exact Bool.false_ne_true)
    rw [exact_add_of_infinite hx hy hfinite]
    rcases le_abs.1 (not_lt.1 hlarge) with hup | hdown
    · have hinfinite' : y'.isFinite = false := by
        rw [Bool.eq_false_iff]
        intro hfinite'
        have hsmall := abs_lt.1 ((isFinite_iff hy').1 hfinite')
        linarith
      rwa [exact_add_of_infinite hx hy' hinfinite']
    · linarith

theorem isNaN_add {x y : Float32} (h : y.isNaN = true) : (x + y).isNaN = true := by
  rw [isNaN_eq] at h
  change (repack (UnpackedFloat.add .binary32 x.toModel.unpack y.toModel.unpack)).isNaN = true
  generalize x.toModel.unpack = u
  generalize y.toModel.unpack = v at h
  cases v with
  | notANumber =>
    have hadd : UnpackedFloat.add .binary32 u .notANumber = .notANumber := by cases u <;> rfl
    rw [hadd, repack_notANumber]
    rfl
  | _ => cases h

theorem isNaN_mul_zero {x : Float32} (hx : x.isNaN = false) (hinfinite : x.isFinite = false) :
    (x * 0).isNaN = true := by
  rw [isNaN_eq] at hx
  rw [isFinite_eq] at hinfinite
  change (repack (UnpackedFloat.mul .binary32 x.toModel.unpack (.zero .positive))).isNaN = true
  generalize x.toModel.unpack = u at hx hinfinite
  cases u with
  | notANumber => cases hx
  | infinity s =>
    have hmul : UnpackedFloat.mul .binary32 (.infinity s) (.zero .positive) = .notANumber := rfl
    rw [hmul, repack_notANumber]
    rfl
  | zero s => cases hinfinite
  | finite s m e hm => cases hinfinite

theorem fl_neg (q : ℚ) : fl (-q) = -fl q := by
  unfold fl saturate
  rw [nearest_neg]
  simp only [max_def, min_def]
  split_ifs <;> linarith

theorem isFinite_of_le {lo x hi : Float32} (hlo : lo.isFinite = true) (hhi : hi.isFinite = true)
    (hlox : lo ≤ x) (hxhi : x ≤ hi) : x.isFinite = true := by
  obtain ⟨hlonum, hx⟩ := number_of_le hlox
  obtain ⟨-, hhinum⟩ := number_of_le hxhi
  have hlow := (abs_lt.1 ((isFinite_iff hlonum).1 hlo)).1
  have hhigh := (abs_lt.1 ((isFinite_iff hhinum).1 hhi)).2
  rw [le_iff_of_number hlonum hx] at hlox
  rw [le_iff_of_number hx hhinum] at hxhi
  rw [isFinite_iff hx, abs_lt]
  exact ⟨hlow.trans_le hlox, hxhi.trans_lt hhigh⟩

theorem isFinite_of_unit {x : Float32} (h : 0 ≤ x ∧ x ≤ 1) : x.isFinite = true :=
  isFinite_of_le (by decide) (by decide) h.1 h.2

theorem sub_le_sub {x x' y y' : Float32} (hx : x.isFinite = true) (hx' : x'.isFinite = true)
    (hy : y.isFinite = true) (hy' : y'.isFinite = true) (hxx' : x ≤ x') (hyy' : y' ≤ y) :
    x - y ≤ x' - y' := by
  obtain ⟨hnum, hexact⟩ := exact_sub hx hy
  obtain ⟨hnum', hexact'⟩ := exact_sub hx' hy'
  rw [le_iff_of_number (number_of_isFinite hx) (number_of_isFinite hx')] at hxx'
  rw [le_iff_of_number (number_of_isFinite hy') (number_of_isFinite hy)] at hyy'
  rw [le_iff_of_number hnum hnum', hexact, hexact']
  exact fl_mono (by linarith)

theorem exact_zero : exact 0 = 0 := by
  rw [exact, unpack_zero]
  rfl

theorem fl_zero : fl 0 = 0 := by
  norm_num [fl, nearest, near_zero, saturate]

theorem exact_sub_nonneg {x y : Float32} (hx : x.isFinite = true) (hy : y.isFinite = true)
    (h : y ≤ x) : 0 ≤ exact (x - y) := by
  rw [(exact_sub hx hy).2, ← fl_zero]
  exact fl_mono (sub_nonneg.2 ((le_iff_of_number (number_of_isFinite hy)
    (number_of_isFinite hx)).1 h))

theorem exact_sub_nonpos {x y : Float32} (hx : x.isFinite = true) (hy : y.isFinite = true)
    (h : x ≤ y) : exact (x - y) ≤ 0 := by
  rw [(exact_sub hx hy).2, ← fl_zero]
  exact fl_mono (sub_nonpos.2 ((le_iff_of_number (number_of_isFinite hx)
    (number_of_isFinite hy)).1 h))

theorem mul_le_mul {x x' y y' : Float32} (hx : x.isFinite = true) (hx' : x'.isFinite = true)
    (hy : y.isFinite = true) (hy' : y'.isFinite = true)
    (h : exact x * exact x' ≤ exact y * exact y') : x * x' ≤ y * y' := by
  obtain ⟨hnum, hexact⟩ := exact_mul hx hx'
  obtain ⟨hnum', hexact'⟩ := exact_mul hy hy'
  rw [le_iff_of_number hnum hnum', hexact, hexact']
  exact fl_mono h

theorem exact_nonneg {x : Float32} (h : 0 ≤ x) : 0 ≤ exact x := by
  rwa [le_iff_of_number rfl (number_of_le h).2, exact_zero] at h

theorem exact_le {x y : Float32} (h : x ≤ y) : exact x ≤ exact y :=
  (le_iff_of_number (number_of_le h).1 (number_of_le h).2).1 h

theorem mul_le_mul_right {x y c : Float32} (hx : x.isFinite = true) (hy : y.isFinite = true)
    (hc : c.isFinite = true) (hxy : x ≤ y) (hpos : 0 ≤ c) : x * c ≤ y * c :=
  mul_le_mul hx hc hy hc (mul_le_mul_of_nonneg_right (exact_le hxy) (exact_nonneg hpos))

theorem mul_le_mul_left {x y c : Float32} (hx : x.isFinite = true) (hy : y.isFinite = true)
    (hc : c.isFinite = true) (hxy : x ≤ y) (hpos : 0 ≤ c) : c * x ≤ c * y :=
  mul_le_mul hc hx hc hy (mul_le_mul_of_nonneg_left (exact_le hxy) (exact_nonneg hpos))

theorem isFinite_sub {x lo hi y lo' hi' : Float32} (hlo : lo.isFinite = true)
    (hhi : hi.isFinite = true) (hlo' : lo'.isFinite = true) (hhi' : hi'.isFinite = true)
    (hx : lo ≤ x ∧ x ≤ hi) (hy : lo' ≤ y ∧ y ≤ hi') (hleast : (lo - hi').isFinite = true)
    (hmost : (hi - lo').isFinite = true) : (x - y).isFinite = true := by
  have hxfinite := isFinite_of_le hlo hhi hx.1 hx.2
  have hyfinite := isFinite_of_le hlo' hhi' hy.1 hy.2
  exact isFinite_of_le hleast hmost (sub_le_sub hlo hxfinite hhi' hyfinite hx.1 hy.2)
    (sub_le_sub hxfinite hhi hyfinite hlo' hx.2 hy.1)

/-! ## Whole numbers -/

theorem exact_toFloat32 (n : UInt32) :
    n.toFloat32.isNaN = false ∧ exact n.toFloat32 = fl n.toNat := by
  have h := exact_repack (rounded_normalize n.toNat 0 .positive)
  rw [zpow_zero, mul_one, Int.cast_natCast] at h
  exact h

theorem toFloat32_le {m n : UInt32} (h : m ≤ n) : m.toFloat32 ≤ n.toFloat32 := by
  obtain ⟨hm, hmexact⟩ := exact_toFloat32 m
  obtain ⟨hn, hnexact⟩ := exact_toFloat32 n
  rw [le_iff_of_number hm hn, hmexact, hnexact]
  exact fl_mono (by exact_mod_cast UInt32.le_iff_toNat_le.1 h)

theorem isFinite_toFloat32 (n : UInt32) : n.toFloat32.isFinite = true := by
  have hleast : (0 : UInt32).toFloat32.isFinite = true := by decide
  have hmost : (4294967295 : UInt32).toFloat32.isFinite = true := by decide
  have hn := n.toNat_lt
  refine isFinite_of_le hleast hmost (toFloat32_le UInt32.zero_le) (toFloat32_le ?_)
  rw [UInt32.le_iff_toNat_le]
  show n.toNat ≤ 4294967295
  omega

theorem exact_toFloat32_pos {n : UInt32} (h : n ≠ 0) : 0 < exact n.toFloat32 := by
  have hone : (1 : UInt32) ≤ n := by
    have : n.toNat ≠ 0 := fun hzero => h (UInt32.toNat_inj.1 hzero)
    rw [UInt32.le_iff_toNat_le]
    show 1 ≤ n.toNat
    omega
  have hpos : (0 : Float32) < (1 : UInt32).toFloat32 := by decide
  rw [lt_iff_of_number rfl (exact_toFloat32 1).1, exact_zero] at hpos
  exact hpos.trans_le (exact_le (toFloat32_le hone))

end ControlVoltage.Single

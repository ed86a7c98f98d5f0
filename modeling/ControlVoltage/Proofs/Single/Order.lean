import ControlVoltage.Proofs.Single.Exactness

/-!
# Operations that keep the order of all numbers

An operation with a fixed finite operand keeps the order of finite numbers, since rounding does. It
also leaves the two infinities alone, and so it keeps the order of all numbers.

* `Ordered` : keeps the order of finite numbers, and leaves the infinities alone.
* `Ordered.le` : keeps the order.
* `exact_floor` : the greatest whole number below is a single.
* `exact_roundAway` : the nearest whole number is one too.
* `ordered_floor`, `ordered_div`, `ordered_mul_left`, `ordered_mul_right` : operations that do.
-/

namespace ControlVoltage.Single

open Float.Model Float.Model.UnpackedFloat

variable {x y : Float32}

/-! ## Infinities -/

def IsInfinity (s : Sign) (x : Float32) : Prop := x.toModel.unpack = .infinity s

theorem exists_isInfinity (hx : x.isNaN = false) (hinfinite : x.isFinite = false) :
    ∃ s, IsInfinity s x := by
  rw [isNaN_eq] at hx
  rw [isFinite_eq] at hinfinite
  unfold IsInfinity
  generalize x.toModel.unpack = u at hx hinfinite
  cases u with
  | infinity s => exact ⟨s, rfl⟩
  | notANumber => cases hx
  | zero s => cases hinfinite
  | finite s m e hm => cases hinfinite

theorem IsInfinity.number {s : Sign} (h : IsInfinity s x) : x.isNaN = false := by
  rw [isNaN_eq, h]
  rfl

theorem IsInfinity.exact {s : Sign} (h : IsInfinity s x) :
    Single.exact x = signum s * 2 ^ 128 := by
  rw [Single.exact, h, value]

theorem le_of_isInfinity_positive (hx : x.isNaN = false) (hy : IsInfinity .positive y) : x ≤ y := by
  rw [le_iff_of_number hx hy.number, hy.exact, signum, one_mul]
  exact (abs_le.1 (abs_exact_le x)).2

theorem le_of_isInfinity_negative (hx : IsInfinity .negative x) (hy : y.isNaN = false) : x ≤ y := by
  rw [le_iff_of_number hx.number hy, hx.exact, signum, neg_one_mul]
  exact (abs_le.1 (abs_exact_le y)).1

theorem isInfinity_of_le (hxy : x ≤ y) (hx : x.isFinite = true ∨ IsInfinity .positive x)
    (hy : y.isFinite = false) : IsInfinity .positive y := by
  obtain ⟨hxnumber, hynumber⟩ := number_of_le hxy
  obtain ⟨s, hs⟩ := exists_isInfinity hynumber hy
  cases s with
  | positive => exact hs
  | negative =>
    exfalso
    have hle := exact_le hxy
    rw [hs.exact, signum, neg_one_mul] at hle
    rcases hx with hfinite | hinfinity
    · have := (abs_lt.1 ((isFinite_iff hxnumber).1 hfinite)).1
      linarith
    · rw [hinfinity.exact, signum, one_mul] at hle
      norm_num at hle

/-! ## Operations in order -/

/-- Keeps the order of finite numbers, and leaves the infinities alone. -/
structure Ordered (f : Float32 → Float32) : Prop where
  finite : ∀ x y, x.isFinite = true → y.isFinite = true → x ≤ y → f x ≤ f y
  infinite : ∀ s x, IsInfinity s x → IsInfinity s (f x)

namespace Ordered

variable {f g : Float32 → Float32}

theorem number (h : Ordered f) (hx : x.isNaN = false) : (f x).isNaN = false := by
  cases hfinite : x.isFinite with
  | true => exact (number_of_le (h.finite x x hfinite hfinite (le_refl_of_number hx))).1
  | false =>
    obtain ⟨s, hs⟩ := exists_isInfinity hx hfinite
    exact (h.infinite s x hs).number

theorem le (h : Ordered f) (hxy : x ≤ y) : f x ≤ f y := by
  obtain ⟨hx, hy⟩ := number_of_le hxy
  cases hxfinite : x.isFinite with
  | true =>
    cases hyfinite : y.isFinite with
    | true => exact h.finite x y hxfinite hyfinite hxy
    | false =>
      have htop := isInfinity_of_le hxy (.inl hxfinite) hyfinite
      exact le_of_isInfinity_positive (h.number hx) (h.infinite _ y htop)
  | false =>
    obtain ⟨s, hs⟩ := exists_isInfinity hx hxfinite
    cases s with
    | negative => exact le_of_isInfinity_negative (h.infinite _ x hs) (h.number hy)
    | positive =>
      have htop : IsInfinity .positive y := by
        refine isInfinity_of_le hxy (.inr hs) (Bool.eq_false_of_not_eq_true fun hyfinite => ?_)
        have hle := exact_le hxy
        have hlt := (abs_lt.1 ((isFinite_iff hy).1 hyfinite)).2
        rw [hs.exact, signum, one_mul] at hle
        linarith
      exact le_of_isInfinity_positive (h.number hx) (h.infinite _ y htop)

end Ordered

/-! ## Whole numbers below -/

theorem exact_ofScaled (s : Sign) {m : ℕ} (hm : m < 2 ^ 24) :
    (ofScaled s m 0).isFinite = true ∧ exact (ofScaled s m 0) = signum s * m := by
  have hrounded : Rounded (UnpackedFloat.round .binary32 s m 0) (signum s * (m * 2 ^ (0 : ℤ))) := by
    rcases Nat.eq_zero_or_pos m with rfl | hpos
    · have hzero : UnpackedFloat.round .binary32 s 0 0 = .zero s := by cases s <;> rfl
      rw [hzero, Nat.cast_zero, zero_mul, mul_zero]
      exact rounded_zero s
    · exact rounded_round s hpos 0
  have hunpack : (ofScaled s m 0).toModel.unpack = repack (UnpackedFloat.round .binary32 s m 0) := rfl
  obtain ⟨hnumber, hvalue⟩ := exact_repack hrounded
  rw [← hunpack, ← isNaN_eq] at hnumber
  have hscaled := fl_scaled (m := m) (e := 0) hm (by norm_num) (by norm_num)
  rw [zpow_zero, mul_one] at hvalue hscaled
  have hexact : exact (ofScaled s m 0) = signum s * m := by
    rw [exact, hunpack, hvalue]
    cases s with
    | negative => rw [signum, neg_one_mul, fl_neg, hscaled]
    | positive => rw [signum, one_mul, hscaled]
  refine ⟨(isFinite_iff hnumber).2 ?_, hexact⟩
  have hlt : (m : ℚ) < 2 ^ 24 := by exact_mod_cast hm
  rw [hexact, abs_lt]
  cases s <;> simp only [signum] <;> constructor <;> norm_num <;> linarith

theorem floor_div_natCast (m : ℕ) {k : ℕ} (hk : 0 < k) :
    ⌊(m : ℚ) / k⌋ = (m / k : ℕ) ∧ ⌈(m : ℚ) / k⌉ = ((m + (k - 1)) / k : ℕ) := by
  have hpos : (0 : ℚ) < k := by exact_mod_cast hk
  constructor
  · exact Rat.floor_natCast_div_natCast m k
  · rw [Int.ceil_eq_iff, Int.cast_natCast, lt_div_iff₀ hpos, div_le_iff₀ hpos]
    have hlow : (m + (k - 1)) / k * k ≤ m + (k - 1) := Nat.div_mul_le_self _ _
    have hhigh : m + (k - 1) < (m + (k - 1)) / k * k + k := Nat.lt_div_mul_add hk
    generalize (m + (k - 1)) / k = c at hlow hhigh ⊢
    have hbelow : c * k < m + k := by omega
    have habove : m ≤ c * k := by omega
    constructor
    · have : (c : ℚ) * k < m + k := by exact_mod_cast hbelow
      linarith
    · exact_mod_cast habove

theorem exact_floor_fraction {s : Sign} {m k : ℕ} {hm : 0 < m} (hdigits : m < 2 ^ 24) (hk : 0 < k)
    (h : x.toModel.unpack = .finite s m (-(k : ℤ)) hm) :
    (floor x).isFinite = true ∧ exact (floor x) = ⌊exact x⌋ := by
  have hunit : 0 < 2 ^ k := Nat.two_pow_pos k
  have hwhole : ¬ 0 ≤ -(k : ℤ) := by omega
  have hexact : exact x = signum s * ((m : ℚ) / (2 ^ k : ℕ)) := by
    rw [exact, h, value, zpow_neg, zpow_natCast, Nat.cast_pow, Nat.cast_ofNat, div_eq_mul_inv]
  obtain ⟨hdown, hup⟩ := floor_div_natCast m hunit
  rw [hexact]
  cases s with
  | positive =>
    have hfloor : floor x = ofScaled .positive (m / 2 ^ k) 0 := by
      simp only [floor, h, if_neg hwhole, neg_neg, Int.toNat_natCast, Nat.pow_eq]
    have hless : m / 2 ^ k < 2 ^ 24 := (Nat.div_le_self _ _).trans_lt hdigits
    rw [hfloor, signum, one_mul, hdown, Int.cast_natCast]
    have h := exact_ofScaled .positive hless
    rwa [signum, one_mul] at h
  | negative =>
    have hfloor : floor x = ofScaled .negative ((m + (2 ^ k - 1)) / 2 ^ k) 0 := by
      simp only [floor, h, if_neg hwhole, neg_neg, Int.toNat_natCast, Nat.pow_eq]
    have hless : (m + (2 ^ k - 1)) / 2 ^ k < 2 ^ 24 := by
      have hhalf : 2 ≤ 2 ^ k := Nat.le_self_pow hk.ne' 2
      rw [Nat.div_lt_iff_lt_mul hunit]
      omega
    rw [hfloor, signum, neg_one_mul, Int.floor_neg, hup, Int.cast_neg, Int.cast_natCast]
    have h := exact_ofScaled .negative hless
    rwa [signum, neg_one_mul] at h

theorem exists_whole (s : Sign) (m k : ℕ) : ∃ n : ℤ, signum s * ((m : ℚ) * 2 ^ (k : ℤ)) = n := by
  have hwhole : (m : ℚ) * 2 ^ (k : ℤ) = ((m * 2 ^ k : ℕ) : ℤ) := by
    rw [zpow_natCast]
    push_cast
    rfl
  cases s with
  | positive => exact ⟨_, by rw [signum, one_mul, hwhole]⟩
  | negative => exact ⟨-_, by rw [signum, neg_one_mul, hwhole, Int.cast_neg]⟩

theorem exact_floor (hx : x.isFinite = true) :
    (floor x).isFinite = true ∧ exact (floor x) = ⌊exact x⌋ := by
  have hcanonical := canonical x
  cases h : x.toModel.unpack with
  | notANumber => rw [isFinite_eq, h] at hx; cases hx
  | infinity s => rw [isFinite_eq, h] at hx; cases hx
  | zero s =>
    have hfloor : floor x = x := by simp only [floor, h]
    have hzero : exact x = 0 := by rw [exact, h, value]
    rw [hfloor, hzero]
    exact ⟨hx, by rw [Int.floor_zero, Int.cast_zero]⟩
  | finite s m e hm =>
    rw [h] at hcanonical
    rcases le_or_gt 0 e with he | he
    · have hfloor : floor x = x := by simp only [floor, h, if_pos he]
      obtain ⟨k, rfl⟩ := Int.eq_ofNat_of_zero_le he
      obtain ⟨n, hn⟩ := exists_whole s m k
      have hwhole : exact x = n := by rw [exact, h, value, hn]
      rw [hfloor, hwhole, Int.floor_intCast]
      exact ⟨hx, rfl⟩
    · obtain ⟨k, hk⟩ := Int.exists_eq_neg_ofNat he.le
      subst hk
      exact exact_floor_fraction hcanonical.1 (by omega) h

theorem ordered_floor : Ordered floor where
  finite x y hx hy hxy := by
    obtain ⟨hfx, hex⟩ := exact_floor hx
    obtain ⟨hfy, hey⟩ := exact_floor hy
    rw [le_iff_of_number (number_of_isFinite hfx) (number_of_isFinite hfy), hex, hey]
    exact_mod_cast Int.floor_mono (exact_le hxy)
  infinite s x h := by
    have hfloor : floor x = x := by
      unfold IsInfinity at h
      simp only [floor, h]
    rwa [hfloor]

theorem floor_nonneg (h : 0 ≤ x) : 0 ≤ floor x := by
  have hzero : floor 0 = 0 := by simp only [floor, unpack_zero]
  rw [← hzero]
  exact ordered_floor.le h

/-! ## The nearest whole number -/

theorem exact_roundAway_fraction {m k : ℕ} {hm : 0 < m} (hdigits : m < 2 ^ 24) (hk : 0 < k)
    (h : x.toModel.unpack = .finite .positive m (-(k : ℤ)) hm) :
    (roundAway x).isNaN = false ∧ exact (roundAway x) = ⌊exact x + 1 / 2⌋₊ := by
  have hunit : 0 < 2 ^ k := Nat.two_pow_pos k
  have heven : 2 ^ k = 2 * (2 ^ k / 2) := by
    obtain ⟨j, rfl⟩ := Nat.exists_eq_succ_of_ne_zero hk.ne'
    rw [pow_succ]
    omega
  have hresult : roundAway x = ofScaled .positive ((m + 2 ^ k / 2) / 2 ^ k) 0 := by
    have hfraction : ¬ 0 ≤ -(k : ℤ) := by omega
    simp only [roundAway, h, if_neg hfraction, neg_neg, Int.toNat_natCast, Nat.pow_eq]
  have hsum : exact x + 1 / 2 = ((m + 2 ^ k / 2 : ℕ) : ℚ) / (2 ^ k : ℕ) := by
    have hexact : exact x = m / (2 ^ k : ℕ) := by
      rw [exact, h, value, signum, one_mul, zpow_neg, zpow_natCast, Nat.cast_pow, Nat.cast_ofNat,
        div_eq_mul_inv]
    have hhalf : ((2 ^ k : ℕ) : ℚ) = 2 * (2 ^ k / 2 : ℕ) := by exact_mod_cast heven
    have hpos : (0 : ℚ) < (2 ^ k / 2 : ℕ) := by
      have : 0 < 2 ^ k / 2 := by omega
      exact_mod_cast this
    rw [hexact, Nat.cast_add, hhalf]
    field_simp
  have hless : (m + 2 ^ k / 2) / 2 ^ k < 2 ^ 24 := by
    rw [Nat.div_lt_iff_lt_mul hunit]
    omega
  obtain ⟨hfinite, hexact⟩ := exact_ofScaled .positive hless
  rw [signum, one_mul] at hexact
  rw [hresult, hsum, hexact, Nat.floor_div_eq_div]
  exact ⟨number_of_isFinite hfinite, rfl⟩

theorem exact_roundAway (h : 0 ≤ x) :
    (roundAway x).isNaN = false ∧ exact (roundAway x) = ⌊exact x + 1 / 2⌋₊ := by
  have hnumber := (number_of_le h).2
  have hnonneg := exact_nonneg h
  have hcanonical := canonical x
  -- A whole number stays as it is.
  have hwhole (hstays : roundAway x = x) {n : ℕ} (hn : exact x = n) :
      (roundAway x).isNaN = false ∧ exact (roundAway x) = ⌊exact x + 1 / 2⌋₊ := by
    have hfloor : ⌊(n : ℚ) + 1 / 2⌋₊ = n := by
      rw [Nat.floor_eq_iff (by positivity)]
      constructor <;> linarith
    rw [hstays, hn, hfloor]
    exact ⟨hnumber, rfl⟩
  cases hunpack : x.toModel.unpack with
  | notANumber =>
    rw [isNaN_eq, hunpack] at hnumber
    cases hnumber
  | zero s =>
    refine hwhole (n := 0) (by simp only [roundAway, hunpack]) ?_
    rw [exact, hunpack, value, Nat.cast_zero]
  | infinity s =>
    rw [exact, hunpack, value] at hnonneg
    cases s with
    | negative => norm_num [signum] at hnonneg
    | positive =>
      refine hwhole (n := 2 ^ 128) (by simp only [roundAway, hunpack]) ?_
      rw [exact, hunpack, value, signum, one_mul, Nat.cast_pow, Nat.cast_ofNat]
  | finite s m e hm =>
    rw [exact, hunpack, value] at hnonneg
    rw [hunpack] at hcanonical
    cases s with
    | negative =>
      rw [signum, neg_one_mul] at hnonneg
      linarith [magnitude_pos hm e]
    | positive =>
      rcases le_or_gt 0 e with he | he
      · obtain ⟨k, rfl⟩ := Int.eq_ofNat_of_zero_le he
        refine hwhole (n := m * 2 ^ k) (by simp only [roundAway, hunpack, if_pos he]) ?_
        rw [exact, hunpack, value, signum, one_mul, zpow_natCast]
        push_cast
        rfl
      · obtain ⟨k, rfl⟩ := Int.exists_eq_neg_ofNat he.le
        exact exact_roundAway_fraction hcanonical.1 (by omega) hunpack

theorem roundAway_nonneg (h : 0 ≤ x) : 0 ≤ roundAway x := by
  obtain ⟨hnumber, hexact⟩ := exact_roundAway h
  rw [le_iff_of_number rfl hnumber, hexact, exact_zero]
  exact Nat.cast_nonneg _

/-! ## Arithmetic with a finite number -/

theorem ordered_add_right {c : Float32} (hc : c.isFinite = true) : Ordered (· + c) where
  finite x y hx hy hxy := by
    obtain ⟨hxnumber, hxexact⟩ := exact_add hx hc
    obtain ⟨hynumber, hyexact⟩ := exact_add hy hc
    have hle := exact_le hxy
    rw [le_iff_of_number hxnumber hynumber, hxexact, hyexact]
    exact fl_mono (by linarith)
  infinite s x h := by
    rw [isFinite_eq] at hc
    change repack (UnpackedFloat.add .binary32 x.toModel.unpack c.toModel.unpack) = .infinity s
    unfold IsInfinity at h
    rw [h]
    generalize c.toModel.unpack = u at hc
    have hadd : UnpackedFloat.add .binary32 (.infinity s) u = .infinity s := by
      cases u <;> first | rfl | cases hc
    rw [hadd, repack_infinity]

theorem mul_nonneg (hx : x.isFinite = true) (hy : y.isFinite = true) (hxpos : 0 ≤ x) (hypos : 0 ≤ y) :
    0 ≤ x * y := by
  obtain ⟨hnumber, hexact⟩ := exact_mul hx hy
  rw [le_iff_of_number rfl hnumber, hexact, exact_zero, ← fl_zero]
  exact fl_mono (Right.mul_nonneg (exact_nonneg hxpos) (exact_nonneg hypos))

theorem ofNat_nonneg (n : ℕ) : 0 ≤ Single.ofNat n := by
  have hle : (0 : UInt32).toFloat32 ≤ n.toUInt32.toFloat32 := toFloat32_le UInt32.zero_le
  have hzero : (0 : UInt32).toFloat32 = 0 := rfl
  rwa [hzero] at hle

theorem add_le_add_right {c : Float32} (hx : x.isFinite = true) (hy : y.isFinite = true)
    (hc : c.isNaN = false) (hxy : x ≤ y) : x + c ≤ y + c := by
  cases hfinite : c.isFinite with
  | true => exact (ordered_add_right hfinite).le hxy
  | false =>
    rw [le_iff_of_number (number_add hx hc) (number_add hy hc),
      exact_add_of_infinite hx hc hfinite, exact_add_of_infinite hy hc hfinite]

theorem ordered_div {c : Float32} (hc : c.isFinite = true) (hpos : 0 < exact c) :
    Ordered (· / c) where
  finite x y hx hy hxy := div_le_div hx hy hc hpos hxy
  infinite s x h := by
    obtain ⟨m, e, hm, hunpack⟩ := unpack_of_pos hc hpos
    change repack (UnpackedFloat.div .binary32 x.toModel.unpack c.toModel.unpack) = .infinity s
    unfold IsInfinity at h
    rw [h, hunpack]
    have hdiv : UnpackedFloat.div .binary32 (.infinity s) (.finite .positive m e hm) = .infinity s := by
      cases s <;> rfl
    rw [hdiv, repack_infinity]

theorem ordered_mul_left {c : Float32} (hc : c.isFinite = true) (hpos : 0 < exact c) :
    Ordered (c * ·) where
  finite x y hx hy hxy :=
    mul_le_mul hc hx hc hy (mul_le_mul_of_nonneg_left (exact_le hxy) hpos.le)
  infinite s x h := by
    obtain ⟨m, e, hm, hunpack⟩ := unpack_of_pos hc hpos
    change repack (UnpackedFloat.mul .binary32 c.toModel.unpack x.toModel.unpack) = .infinity s
    unfold IsInfinity at h
    rw [h, hunpack]
    have hmul : UnpackedFloat.mul .binary32 (.finite .positive m e hm) (.infinity s) = .infinity s := by
      cases s <;> rfl
    rw [hmul, repack_infinity]

protected theorem mul_comm (x y : Float32) : x * y = y * x := by
  have hproducts : UnpackedFloat.mul .binary32 x.toModel.unpack y.toModel.unpack =
      UnpackedFloat.mul .binary32 y.toModel.unpack x.toModel.unpack := by
    have hsign : ∀ s s' : Sign, s * s' = s' * s := by
      intro s s'
      cases s <;> cases s' <;> rfl
    generalize x.toModel.unpack = u
    generalize y.toModel.unpack = v
    cases u <;> cases v <;> simp [UnpackedFloat.mul, hsign, Nat.mul_comm, Int.add_comm]
  exact congrArg (fun u => Float32.ofModel (.pack u)) hproducts

theorem ordered_mul_right {c : Float32} (hc : c.isFinite = true) (hpos : 0 < exact c) :
    Ordered (· * c) := by
  have hswap : (· * c) = (c * ·) := funext fun x => Single.mul_comm x c
  rw [hswap]
  exact ordered_mul_left hc hpos

end ControlVoltage.Single

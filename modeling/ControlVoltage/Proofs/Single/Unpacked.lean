import ControlVoltage.Proofs.Single.Rounding
import Mathlib

/-!
# The rounding of unpacked numbers

The operations of `Float.Model` give a result by shifting a mantissa to the right and rounding it.
Here that result is the single nearest to the exact one.

* `value` : the number an unpacked float stands for. An infinity stands for `2 ^ 128`, the first
  power of two that is too large to be finite.
* `Canonical` : the mantissa has 24 binary digits, or fewer at the least exponent.
* `Stands` : a mantissa with its two residual bits stands for a number, up to the place of that
  number between two halves.
-/

namespace ControlVoltage.Single

open Float.Model Float.Model.UnpackedFloat

/-! ## The number an unpacked float stands for -/

def signum : Sign → ℚ
  | .negative => -1
  | .positive => 1

theorem signum_neg (s : Sign) : signum (-s) = -signum s := by
  cases s
  · exact (neg_neg 1).symm
  · rfl

theorem nearest_signum_mul (s : Sign) {q : ℚ} (hq : 0 ≤ q) :
    nearest (signum s * q) = signum s * near q := by
  have h : nearest q = near q := if_pos hq
  cases s
  · rw [signum, neg_one_mul, neg_one_mul, nearest_neg, h]
  · rw [signum, one_mul, one_mul, h]

/-- The number an unpacked float stands for; `2 ^ 128` for infinity and 0 for a NaN. -/
def value : UnpackedFloat → ℚ
  | .notANumber => 0
  | .infinity s => signum s * 2 ^ 128
  | .zero _ => 0
  | .finite s m e _ => signum s * (m * 2 ^ e)

/-- A finite number is written with 24 binary digits, or with the least exponent. -/
def Canonical : UnpackedFloat → Prop
  | .finite _ m e _ => m < 2 ^ 24 ∧ -149 ≤ e ∧ (2 ^ 23 ≤ m ∨ e = -149)
  | _ => True

theorem targetExponent_eq {m : ℕ} {q : ℚ} (e : ℤ) (hm : 0 < m) (hmq : m ≤ q) (hqm : q < m + 1) :
    Format.binary32.targetExponent (totalExponent m e) = spacing (q * 2 ^ e) := by
  have hlog : Int.log 2 (q * 2 ^ e) = m.log2 + e := by
    have hq : 0 < q * 2 ^ e := mul_pos (by
      have : (0 : ℚ) < m := by exact_mod_cast hm
      linarith) (zpow_two_pos e)
    have hlow : (2 : ℚ) ^ m.log2 ≤ q := by
      have : ((2 ^ m.log2 : ℕ) : ℚ) ≤ m := by exact_mod_cast Nat.log2_self_le hm.ne'
      push_cast at this
      linarith
    have hhigh : q < (2 : ℚ) ^ (m.log2 + 1) := by
      have : ((m + 1 : ℕ) : ℚ) ≤ (2 ^ (m.log2 + 1) : ℕ) := by exact_mod_cast Nat.lt_log2_self
      push_cast at this
      linarith
    apply le_antisymm
    · rw [← Int.lt_add_one_iff]
      apply (Int.lt_zpow_iff_log_lt (b := 2) (by norm_num) hq).1
      have heq : (m.log2 : ℤ) + e + 1 = ((m.log2 + 1 : ℕ) : ℤ) + e := by push_cast; ring
      rw [Nat.cast_ofNat, heq, zpow_two_natAdd]
      exact mul_lt_mul_of_pos_right hhigh (zpow_two_pos e)
    · apply (Int.zpow_le_iff_le_log (b := 2) (by norm_num) hq).1
      rw [Nat.cast_ofNat, zpow_two_natAdd]
      exact mul_le_mul_of_nonneg_right hlow (zpow_two_pos e).le
  unfold spacing
  rw [hlog]
  have hmin : Format.binary32.minExponent = -149 := rfl
  have hbits : (Format.binary32.mantissaBits : ℤ) = 24 := rfl
  simp only [Format.targetExponent, totalExponent, hmin, hbits]
  congr 1
  ring

/-! ## Shifts -/

/-- The mantissa is the whole part of `q`, and the two bits tell where the rest is: zero, below a
half, a half, or above it. -/
def Stands : ExtendedMantissa → ℚ → Prop
  | ⟨m, false, false⟩, q => q = m
  | ⟨m, false, true⟩, q => m < q ∧ q < m + 1 / 2
  | ⟨m, true, false⟩, q => q = m + 1 / 2
  | ⟨m, true, true⟩, q => m + 1 / 2 < q ∧ q < m + 1

theorem stands_exact (m : ℕ) : Stands (.ofMantissaAndAccuracy m .exact) m :=
  rfl

theorem Stands.bounds {em : ExtendedMantissa} {q : ℚ} (h : Stands em q) :
    em.mantissa ≤ q ∧ q < em.mantissa + 1 := by
  obtain ⟨m, roundBit, stickyBit⟩ := em
  cases roundBit <;> cases stickyBit <;> simp only [Stands] at h ⊢ <;>
    constructor <;> linarith

theorem Stands.roundedMantissa {em : ExtendedMantissa} {q : ℚ} (h : Stands em q) :
    (em.roundedMantissa : ℤ) = halfEven q := by
  have hfloor : ⌊q⌋ = em.mantissa := Int.floor_eq_iff.2 (by exact_mod_cast h.bounds)
  have hfract : Int.fract q = q - em.mantissa := by
    rw [← Int.self_sub_floor, hfloor, Int.cast_natCast]
  unfold halfEven
  rw [hfloor, hfract]
  obtain ⟨m, roundBit, stickyBit⟩ := em
  cases roundBit <;> cases stickyBit <;> simp only [Stands] at h ⊢
  · rw [if_pos (by linarith)]
    rfl
  · rw [if_pos (by linarith)]
    rfl
  · rw [if_neg (by linarith), if_neg (by linarith)]
    exact Int.natCast_add m (m % 2)
  · rw [if_neg (by linarith), if_pos (by linarith)]
    rfl

theorem Stands.shiftRightOne {em : ExtendedMantissa} {q : ℚ} (h : Stands em q) :
    Stands em.shiftRightOne (q / 2) := by
  obtain ⟨m, roundBit, stickyBit⟩ := em
  -- the last digit becomes the round bit, and what the two bits told becomes the sticky bit
  obtain ⟨half, digit, hdigit, hm⟩ : ∃ half digit, digit < 2 ∧ m = 2 * half + digit :=
    ⟨m / 2, m % 2, by omega, by omega⟩
  subst hm
  have hhalf : (2 * half + digit) / 2 = half := by omega
  have hmod : (2 * half + digit) % 2 = digit := by omega
  simp only [ExtendedMantissa.shiftRightOne, hhalf, hmod]
  rcases (by omega : digit = 0 ∨ digit = 1) with rfl | rfl <;> cases roundBit <;>
    cases stickyBit <;> simp [Stands] at h ⊢ <;> first | linarith | (constructor <;> linarith)

theorem Stands.shiftRight {em : ExtendedMantissa} {q : ℚ} (h : Stands em q) (n : ℕ) :
    Stands (em >>> n) (q / 2 ^ n) := by
  change Stands (Nat.repeat ExtendedMantissa.shiftRightOne n em) (q / 2 ^ n)
  induction n with
  | zero => simpa [Nat.repeat] using h
  | succ n ih =>
    rw [Nat.repeat, pow_succ, ← div_div]
    exact ih.shiftRightOne

theorem Stands.shiftToExponent {m : ℕ} {acc : Accuracy} {q : ℚ}
    (h : Stands (.ofMantissaAndAccuracy m acc) q) {e t : ℤ} (het : e ≤ t) :
    Stands (shiftToExponent m e acc t).1 (q * 2 ^ e / 2 ^ t) ∧
      (shiftToExponent m e acc t).2 = t := by
  have ht : ((t - e).toNat : ℤ) + e = t := by omega
  have hdiv : q * 2 ^ e / 2 ^ t = q / 2 ^ (t - e).toNat := by
    have hne := (zpow_two_pos e).ne'
    rw [← ht, zpow_two_natAdd, ht, mul_div_mul_right _ _ hne]
  refine ⟨?_, ?_⟩
  · rw [hdiv]
    exact h.shiftRight _
  · change e + ((t - e).toNat : ℤ) = t
    omega

/-! ## Rounding -/

/-- What the rounding of a number has to give. -/
structure Rounded (u : UnpackedFloat) (q : ℚ) : Prop where
  finite : u.isFinite = true
  canonical : Canonical u
  value : value u = nearest q

/-- The number with a given mantissa and exponent, or zero. -/
def assemble (s : Sign) (em : ExtendedMantissa × ℤ) : UnpackedFloat :=
  if h : em.1.mantissa = 0 then .zero s else .finite s em.1.mantissa em.2 (Nat.pos_of_ne_zero h)

theorem assemble_of_zero (s : Sign) {em : ExtendedMantissa × ℤ} (h : em.1.mantissa = 0) :
    assemble s em = .zero s :=
  dif_pos h

theorem assemble_of_pos (s : Sign) {em : ExtendedMantissa × ℤ} (h : 0 < em.1.mantissa) :
    assemble s em = .finite s em.1.mantissa em.2 h :=
  dif_neg h.ne'

theorem value_assemble (s : Sign) (em : ExtendedMantissa × ℤ) :
    value (assemble s em) = signum s * (em.1.mantissa * 2 ^ em.2) := by
  rcases Nat.eq_zero_or_pos em.1.mantissa with h | h
  · rw [assemble_of_zero s h, h, Nat.cast_zero, zero_mul, mul_zero]
    rfl
  · rw [assemble_of_pos s h]
    rfl

theorem isFinite_assemble (s : Sign) (em : ExtendedMantissa × ℤ) :
    (assemble s em).isFinite = true := by
  rcases Nat.eq_zero_or_pos em.1.mantissa with h | h
  · rw [assemble_of_zero s h]
    rfl
  · rw [assemble_of_pos s h]
    rfl

theorem canonical_assemble (s : Sign) {em : ExtendedMantissa × ℤ} (hmost : em.1.mantissa < 2 ^ 24)
    (hleast : -149 ≤ em.2) (hnormal : 2 ^ 23 ≤ em.1.mantissa ∨ em.2 = -149) :
    Canonical (assemble s em) := by
  rcases Nat.eq_zero_or_pos em.1.mantissa with h | h
  · rw [assemble_of_zero s h]
    trivial
  · rw [assemble_of_pos s h]
    exact ⟨hmost, hleast, hnormal⟩

theorem shiftToTargetExponent_eq {n : ℕ} {t : ℤ} (hn : n ≤ 2 ^ 24) (ht : -149 ≤ t) :
    let em := shiftToTargetExponent .binary32 n t .exact
    em.1.mantissa = n ∧ em.2 = t ∧ n < 2 ^ 24 ∨ em.1.mantissa = 2 ^ 23 ∧ em.2 = t + 1 ∧ n = 2 ^ 24 := by
  have hmin : Format.binary32.minExponent = -149 := rfl
  have hbits : (Format.binary32.mantissaBits : ℤ) = 24 := rfl
  rcases hn.lt_or_eq with hlt | rfl
  · left
    have hlog : n.log2 < 24 := by
      rcases Nat.eq_zero_or_pos n with rfl | hpos
      · decide
      · exact (Nat.log2_lt hpos.ne').2 hlt
    have htarget : Format.binary32.targetExponent (totalExponent n t) ≤ t := by
      simp only [Format.targetExponent, totalExponent, hmin, hbits]
      omega
    have hshift : (Format.binary32.targetExponent (totalExponent n t) - t).toNat = 0 := by omega
    simp only [shiftToTargetExponent, UnpackedFloat.shiftToExponent, hshift]
    exact ⟨rfl, by omega, hlt⟩
  · -- Rounding has carried into a 25th digit, and the mantissa is halved.
    right
    have htarget : Format.binary32.targetExponent (totalExponent (2 ^ 24) t) = t + 1 := by
      simp only [Format.targetExponent, totalExponent, hmin, hbits, Nat.log2_two_pow]
      omega
    have hshift : (t + 1 - t).toNat = 1 := by omega
    simp only [shiftToTargetExponent, UnpackedFloat.shiftToExponent, htarget, hshift]
    exact ⟨rfl, by omega, trivial⟩

/-- A mantissa that is brought to the spacing of its number is rounded to the nearest single. -/
theorem rounded_of_spacing (s : Sign) {m : ℕ} {e : ℤ} {acc : Accuracy} {q : ℚ}
    (h : Stands (.ofMantissaAndAccuracy m acc) q) (hpos : 0 < q * 2 ^ e)
    (htarget : Format.binary32.targetExponent (totalExponent m e) = spacing (q * 2 ^ e))
    (he : e ≤ spacing (q * 2 ^ e)) :
    Rounded (roundWithAccuracy .binary32 s m e acc) (signum s * (q * 2 ^ e)) := by
  obtain ⟨hstands, hexp⟩ := h.shiftToExponent he
  set t := spacing (q * 2 ^ e) with ht
  set first := shiftToExponent m e acc t with hfirst
  have hround := hstands.roundedMantissa
  have hmost : first.1.roundedMantissa ≤ 2 ^ 24 := by
    have := halfEven_le (n := 2 ^ 24) (by exact_mod_cast (lt_spacing (q * 2 ^ e)).le)
    rw [← hround] at this
    exact_mod_cast this
  have hleast : -149 ≤ t := le_max_right _ _
  have hnormal : 2 ^ 23 ≤ first.1.roundedMantissa ∨ t = -149 := by
    by_cases hmin : t = -149
    · exact Or.inr hmin
    · left
      have := le_halfEven (n := 2 ^ 23) (by exact_mod_cast spacing_le hpos hmin)
      rw [← hround] at this
      exact_mod_cast this
  have hresult : roundWithAccuracy .binary32 s m e acc =
      assemble s (shiftToTargetExponent .binary32 first.1.roundedMantissa first.2 .exact) := by
    rw [hfirst, ← htarget]
    rfl
  have hnear : near (q * 2 ^ e) = first.1.roundedMantissa * 2 ^ t := by
    unfold near
    rw [← ht, ← hround, Int.cast_natCast]
  rw [hresult, hexp]
  refine ⟨isFinite_assemble _ _, ?_, ?_⟩
  · rcases shiftToTargetExponent_eq hmost hleast with ⟨hmantissa, hexponent, hlt⟩ |
      ⟨hmantissa, hexponent, -⟩
    · exact canonical_assemble s (by omega) (by omega) (by omega)
    · exact canonical_assemble s (by omega) (by omega) (by omega)
  · rw [value_assemble, nearest_signum_mul s hpos.le, hnear]
    rcases shiftToTargetExponent_eq hmost hleast with ⟨hmantissa, hexponent, -⟩ |
      ⟨hmantissa, hexponent, heq⟩
    · rw [hmantissa, hexponent]
    · rw [hmantissa, hexponent, heq, zpow_add₀ (by norm_num)]
      push_cast
      ring

theorem rounded_roundWithAccuracy (s : Sign) {m : ℕ} {e : ℤ} {acc : Accuracy} {q : ℚ}
    (h : Stands (.ofMantissaAndAccuracy m acc) q) (hm : 0 < m) (hmq : m ≤ q) (hqm : q < m + 1)
    (he : e ≤ Format.binary32.targetExponent (totalExponent m e)) :
    Rounded (roundWithAccuracy .binary32 s m e acc) (signum s * (q * 2 ^ e)) := by
  have hpos : 0 < q * 2 ^ e := mul_pos (by
    have : (0 : ℚ) < m := by exact_mod_cast hm
    linarith) (zpow_two_pos e)
  have htarget := targetExponent_eq e hm hmq hqm
  exact rounded_of_spacing s h hpos htarget (htarget ▸ he)

theorem rounded_round (s : Sign) {m : ℕ} (hm : 0 < m) (e : ℤ) :
    Rounded (round .binary32 s m e) (signum s * (m * 2 ^ e)) := by
  set t := Format.binary32.targetExponent (totalExponent m e) with ht
  set n := (e - t).toNat with hn
  have hshift : m <<< n = m * 2 ^ n := Nat.shiftLeft_eq m n
  have hpos : 0 < m * 2 ^ n := Nat.mul_pos hm (Nat.two_pow_pos n)
  have hvalue : (((m * 2 ^ n : ℕ) : ℚ)) * 2 ^ (e - n) = m * 2 ^ e := by
    have heq : e = (n : ℤ) + (e - n) := by omega
    conv_rhs => rw [heq, zpow_two_natAdd]
    push_cast
    ring
  have hle : e - n ≤ Format.binary32.targetExponent (totalExponent (m * 2 ^ n) (e - n)) := by
    rw [targetExponent_eq _ hpos le_rfl (lt_add_one _), hvalue,
      ← targetExponent_eq e hm le_rfl (lt_add_one _), ← ht]
    omega
  have h := rounded_roundWithAccuracy s (stands_exact (m * 2 ^ n)) hpos le_rfl (lt_add_one _) hle
  rw [hvalue, ← hshift] at h
  exact h

theorem rounded_zero (s : Sign) : Rounded (.zero s) 0 := by
  refine ⟨rfl, trivial, ?_⟩
  simp [value, nearest, near_zero]

theorem rounded_normalize (m e : ℤ) (s : Sign) :
    Rounded (UnpackedFloat.normalize .binary32 m e s) (m * 2 ^ e) := by
  unfold UnpackedFloat.normalize
  rcases lt_trichotomy m 0 with hlt | rfl | hgt
  · have hcast : ((-m).toNat : ℚ) = -m := by
      have : ((-m).toNat : ℤ) = -m := by omega
      exact_mod_cast this
    have h := rounded_round .negative (show 0 < (-m).toNat by omega) e
    rw [hcast, signum, neg_one_mul, neg_mul, neg_neg] at h
    rw [compare_lt_iff_lt.2 hlt]
    exact h
  · have h := rounded_zero s
    rw [Int.cast_zero, zero_mul]
    exact h
  · have hcast : (m.toNat : ℚ) = m := by
      have : (m.toNat : ℤ) = m := by omega
      exact_mod_cast this
    have h := rounded_round .positive (show 0 < m.toNat by omega) e
    rw [hcast, signum, one_mul] at h
    rw [compare_gt_iff_gt.2 hgt]
    exact h

/-! ## Operations -/

theorem targetExponent_of_canonical {s : Sign} {m : ℕ} {e : ℤ} {hm : 0 < m}
    (h : Canonical (.finite s m e hm)) :
    Format.binary32.targetExponent (totalExponent m e) = e := by
  obtain ⟨hmost, hleast, hnormal⟩ := h
  have hmin : Format.binary32.minExponent = -149 := rfl
  have hbits : (Format.binary32.mantissaBits : ℤ) = 24 := rfl
  have hlog : m.log2 < 24 := (Nat.log2_lt hm.ne').2 hmost
  simp only [Format.targetExponent, totalExponent, hmin, hbits]
  rcases hnormal with hnormal | hmine
  · have : 23 ≤ m.log2 := (Nat.le_log2 hm.ne').2 hnormal
    omega
  · omega

theorem rounded_of_canonical {u : UnpackedFloat} (hfinite : u.isFinite = true) (h : Canonical u) :
    Rounded u (value u) := by
  refine ⟨hfinite, h, ?_⟩
  cases u with
  | notANumber => cases hfinite
  | infinity s => cases hfinite
  | zero s => exact (rounded_zero s).value
  | finite s m e hm =>
    have hspacing : spacing (m * 2 ^ e) = e := by
      rw [← targetExponent_eq e hm le_rfl (lt_add_one _), targetExponent_of_canonical h]
    have hpos : (0 : ℚ) ≤ m * 2 ^ e := mul_nonneg (Nat.cast_nonneg m) (zpow_two_pos e).le
    have hdiv : (m : ℚ) * 2 ^ e / 2 ^ e = (m : ℤ) := by
      rw [mul_div_cancel_right₀ _ (zpow_two_pos e).ne', Int.cast_natCast]
    have hnear : near (m * 2 ^ e) = m * 2 ^ e := by
      rw [near, hspacing, hdiv, halfEven_intCast, Int.cast_natCast]
    rw [value, nearest_signum_mul s hpos, hnear]

theorem value_neg (u : UnpackedFloat) : value u.neg = -value u := by
  cases u with
  | notANumber => exact neg_zero.symm
  | zero s => exact neg_zero.symm
  | infinity s =>
    change signum (-s) * 2 ^ 128 = -(signum s * 2 ^ 128)
    rw [signum_neg, neg_mul]
  | finite s m e hm =>
    change signum (-s) * (m * 2 ^ e) = -(signum s * (m * 2 ^ e))
    rw [signum_neg, neg_mul]

theorem isFinite_neg (u : UnpackedFloat) : u.neg.isFinite = u.isFinite := by
  cases u <;> rfl

theorem Canonical.neg {u : UnpackedFloat} (h : Canonical u) : Canonical u.neg := by
  cases u <;> exact h

theorem cast_apply (s : Sign) (n : ℤ) : (s.apply n : ℚ) = signum s * n := by
  cases s
  · rw [Sign.apply, signum, neg_one_mul, Int.cast_neg]
  · rw [Sign.apply, signum, one_mul]

theorem decreaseExponent_fst (m : ℕ) {e t : ℤ} (h : t ≤ e) :
    ((decreaseExponent m e t).1 : ℚ) * 2 ^ t = m * 2 ^ e := by
  have heq : e = ((e - t).toNat : ℤ) + t := by omega
  have hshift : (decreaseExponent m e t).1 = m * 2 ^ (e - t).toNat := Nat.shiftLeft_eq _ _
  conv_rhs => rw [heq, zpow_two_natAdd]
  rw [hshift]
  push_cast
  ring

theorem rounded_add {u v : UnpackedFloat} (hu : u.isFinite = true) (hv : v.isFinite = true)
    (hcu : Canonical u) (hcv : Canonical v) :
    Rounded (UnpackedFloat.add .binary32 u v) (value u + value v) := by
  cases u with
  | notANumber => cases hu
  | infinity s => cases hu
  | zero s =>
    rw [show value (.zero s) = 0 from rfl, zero_add]
    cases v with
    | notANumber => cases hv
    | infinity s' => cases hv
    | zero s' =>
      simp only [UnpackedFloat.add]
      split_ifs <;> exact rounded_zero _
    | finite s' m' e' hm' => exact rounded_of_canonical rfl hcv
  | finite s m e hm =>
    cases v with
    | notANumber => cases hv
    | infinity s' => cases hv
    | zero s' =>
      rw [show value (.zero s') = 0 from rfl, add_zero]
      exact rounded_of_canonical rfl hcu
    | finite s' m' e' hm' =>
      have hleft := decreaseExponent_fst m (min_le_left e e')
      have hright := decreaseExponent_fst m' (min_le_right e e')
      have hsum : value (.finite s m e hm) + value (.finite s' m' e' hm') =
          ((s.apply (decreaseExponent m e (min e e')).1 +
            s'.apply (decreaseExponent m' e' (min e e')).1 : ℤ) : ℚ) * 2 ^ min e e' := by
        rw [Int.cast_add, cast_apply, cast_apply, Int.cast_natCast, Int.cast_natCast, add_mul,
          mul_assoc, mul_assoc, hleft, hright]
        rfl
      rw [hsum]
      exact rounded_normalize _ _ _

theorem sub_eq_add (u v : UnpackedFloat) :
    UnpackedFloat.sub .binary32 u v = UnpackedFloat.add .binary32 u v.neg := by
  cases u <;> cases v
  case finite.finite s m e hm s' m' e' hm' =>
    have happly (n : ℤ) : (-s').apply n = -s'.apply n := by
      cases s'
      · exact (neg_neg n).symm
      · rfl
    simp only [UnpackedFloat.sub, UnpackedFloat.add, UnpackedFloat.neg, happly, sub_eq_add_neg]
  all_goals rfl

theorem rounded_sub {u v : UnpackedFloat} (hu : u.isFinite = true) (hv : v.isFinite = true)
    (hcu : Canonical u) (hcv : Canonical v) :
    Rounded (UnpackedFloat.sub .binary32 u v) (value u - value v) := by
  rw [sub_eq_add, sub_eq_add_neg, ← value_neg]
  exact rounded_add hu (by rwa [isFinite_neg]) hcu hcv.neg

theorem signum_mul (s s' : Sign) : signum (s * s') = signum s * signum s' := by
  cases s <;> cases s'
  · show (1 : ℚ) = -1 * -1
    ring
  · show (-1 : ℚ) = -1 * 1
    ring
  · show (-1 : ℚ) = 1 * -1
    ring
  · show (1 : ℚ) = 1 * 1
    ring

theorem mul_exponent_le {m m' : ℕ} {e e' : ℤ} (hm : 0 < m) (hm' : 0 < m')
    (h : 2 ^ 23 ≤ m ∨ e = -149) (h' : 2 ^ 23 ≤ m' ∨ e' = -149) :
    e + e' ≤ Format.binary32.targetExponent (totalExponent (m * m') (e + e')) := by
  have hmin : Format.binary32.minExponent = -149 := rfl
  have hbits : (Format.binary32.mantissaBits : ℤ) = 24 := rfl
  have hpos : 0 < m * m' := Nat.mul_pos hm hm'
  simp only [Format.targetExponent, totalExponent, hmin, hbits]
  by_cases hlarge : 2 ^ 23 ≤ m * m'
  · have : 23 ≤ (m * m').log2 := (Nat.le_log2 hpos.ne').2 hlarge
    omega
  · have he : e = -149 := h.resolve_left fun hle => hlarge (hle.trans (Nat.le_mul_of_pos_right m hm'))
    have he' : e' = -149 :=
      h'.resolve_left fun hle => hlarge (hle.trans (Nat.le_mul_of_pos_left m' hm))
    omega

theorem rounded_mul {u v : UnpackedFloat} (hu : u.isFinite = true) (hv : v.isFinite = true)
    (hcu : Canonical u) (hcv : Canonical v) :
    Rounded (UnpackedFloat.mul .binary32 u v) (value u * value v) := by
  cases u with
  | notANumber => cases hu
  | infinity s => cases hu
  | zero s =>
    rw [show value (.zero s) = 0 from rfl, zero_mul]
    cases v with
    | notANumber => cases hv
    | infinity s' => cases hv
    | zero s' => exact rounded_zero _
    | finite s' m' e' hm' => exact rounded_zero _
  | finite s m e hm =>
    cases v with
    | notANumber => cases hv
    | infinity s' => cases hv
    | zero s' =>
      rw [show value (.zero s') = 0 from rfl, mul_zero]
      exact rounded_zero _
    | finite s' m' e' hm' =>
      have hprod : value (.finite s m e hm) * value (.finite s' m' e' hm') =
          signum (s * s') * (((m * m' : ℕ) : ℚ) * 2 ^ (e + e')) := by
        rw [signum_mul, zpow_add₀ (by norm_num), Nat.cast_mul]
        show signum s * (m * 2 ^ e) * (signum s' * (m' * 2 ^ e')) = _
        ring
      rw [hprod]
      refine rounded_roundWithAccuracy _ (stands_exact (m * m')) (Nat.mul_pos hm hm') le_rfl
        (lt_add_one _) ?_
      exact mul_exponent_le hm hm' hcu.2.2 hcv.2.2

end ControlVoltage.Single

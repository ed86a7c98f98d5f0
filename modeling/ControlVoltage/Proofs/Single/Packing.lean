import ControlVoltage.Proofs.Single.Unpacked

/-!
# Packed numbers

A single is a packed number. What is unpacked from one is canonical and below `2 ^ 128`, and what
is packed comes back as it was, or as an infinity from `2 ^ 128` on. Two canonical numbers compare
like the rational numbers they stand for.
-/

namespace ControlVoltage.Single

open Float.Model Float.Model.UnpackedFloat

/-! ## Out of a word -/

/-- A canonical number that is less than `2 ^ 128` if it is finite. -/
def Fits : UnpackedFloat → Prop
  | .finite s m e hm => Canonical (.finite s m e hm) ∧ e ≤ 104
  | _ => True

theorem Fits.canonical {u : UnpackedFloat} (h : Fits u) : Canonical u := by
  cases u with
  | finite s m e hm => exact h.1
  | _ => trivial

theorem append_one (mantissa : BitVec 23) : (1#1 ++ mantissa).toNat = 2 ^ 23 + mantissa.toNat := by
  rw [BitVec.toNat_append, ← Nat.shiftLeft_add_eq_or_of_lt mantissa.isLt]
  rfl

theorem fits_unpack (word : BitVec Format.binary32.numBits) :
    Fits (UnpackedFloat.unpack .binary32 word) := by
  unfold UnpackedFloat.unpack
  have hbias : (Format.binary32.exponentBias : ℤ) = 127 := rfl
  have hexponent : (unpackExponent word).toNat < 2 ^ 8 := (unpackExponent word).isLt
  have hmantissa : (unpackMantissa word).toNat < 2 ^ 23 := (unpackMantissa word).isLt
  simp only [hbias]
  split_ifs with hall hzero hnone hdigits
  · trivial
  · trivial
  · trivial
  · rw [hnone]
    refine ⟨⟨by omega, ?_, Or.inr ?_⟩, ?_⟩ <;> norm_num
  · have happend := append_one (unpackMantissa word)
    have hne : (unpackExponent word).toNat ≠ 255 := fun h => hall (BitVec.eq_of_toNat_eq h)
    have hpos : (unpackExponent word).toNat ≠ 0 := fun h => hnone (BitVec.eq_of_toNat_eq h)
    refine ⟨⟨?_, ?_, Or.inl ?_⟩, ?_⟩
    · rw [happend]
      omega
    · norm_num
      omega
    · rw [happend]
      omega
    · norm_num
      omega

/-! ## Through a word -/

def repack (u : UnpackedFloat) : UnpackedFloat :=
  UnpackedFloat.unpack .binary32 (UnpackedFloat.pack .binary32 u)

theorem unpack_packComponents (s : Sign) (exponent : BitVec 8) (mantissa : BitVec 23) :
    UnpackedFloat.unpack .binary32 (packComponents .binary32 s exponent mantissa) =
      if exponent = -1#8 then if mantissa = 0#23 then .infinity s else .notANumber
      else if exponent = 0#8 then
        if h : mantissa = 0#23 then .zero s
        else .finite s mantissa.toNat (-149) (by simpa [BitVec.toNat_pos, BitVec.pos_iff_ne_zero])
      else .finite s (2 ^ 23 + mantissa.toNat) (exponent.toNat - 150) (by omega) := by
  have hbias : (Format.binary32.exponentBias : ℤ) = 127 := rfl
  unfold UnpackedFloat.unpack
  simp only [unpackMantissa_packComponents, unpackExponent_packComponents,
    unpackSign_packComponents, Sign.ofBitVec_toBitVec, hbias]
  split_ifs with hall hzero hnone hdigits <;> try rfl
  · rw [hnone]
    rfl
  · congr 1
    exact append_one mantissa

theorem pack_finite (s : Sign) (m : ℕ) (e : ℤ) (hm : 0 < m) :
    UnpackedFloat.pack .binary32 (.finite s m e hm) =
      if 2 ^ 8 ≤ (e + 127 + 23).toNat + 1 then packedInfinity .binary32 s
      else if m.log2 + 1 = 24 then
        packComponents .binary32 s (BitVec.ofNat 8 (e + 127 + 23).toNat) (BitVec.ofNat 23 m)
      else packComponents .binary32 s 0#8 (BitVec.ofNat 23 m) :=
  rfl

theorem repack_finite {s : Sign} {m : ℕ} {e : ℤ} {hm : 0 < m} (h : Fits (.finite s m e hm)) :
    repack (.finite s m e hm) = .finite s m e hm := by
  obtain ⟨⟨hmost, hleast, hnormal⟩, hexponent⟩ := h
  have hlog : m.log2 < 24 := (Nat.log2_lt hm.ne').2 hmost
  rw [repack, pack_finite, if_neg (by omega)]
  by_cases hdigits : 2 ^ 23 ≤ m
  · have hlarge : 23 ≤ m.log2 := (Nat.le_log2 hm.ne').2 hdigits
    have hexp : (BitVec.ofNat 8 (e + 127 + 23).toNat).toNat = (e + 127 + 23).toNat := by
      rw [BitVec.toNat_ofNat]
      omega
    have hrest : 2 ^ 23 + (BitVec.ofNat 23 m).toNat = m := by
      rw [BitVec.toNat_ofNat]
      omega
    have hall : BitVec.ofNat 8 (e + 127 + 23).toNat ≠ -1#8 := by
      intro heq
      have : (e + 127 + 23).toNat = 255 := by
        rw [← hexp, heq]
        rfl
      omega
    have hnone : BitVec.ofNat 8 (e + 127 + 23).toNat ≠ 0#8 := by
      intro heq
      have : (e + 127 + 23).toNat = 0 := by
        rw [← hexp, heq]
        rfl
      omega
    rw [if_pos (by omega), unpack_packComponents, if_neg hall, if_neg hnone]
    congr 1
    rw [hexp]
    omega
  · have he : e = -149 := hnormal.resolve_left hdigits
    have hsmall : m.log2 < 23 := (Nat.log2_lt hm.ne').2 (by omega)
    have hrest : (BitVec.ofNat 23 m).toNat = m := by
      rw [BitVec.toNat_ofNat]
      omega
    have hdigit : BitVec.ofNat 23 m ≠ 0#23 := by
      intro heq
      have : m = 0 := by
        rw [← hrest, heq]
        rfl
      omega
    rw [if_neg (by omega), unpack_packComponents, if_neg (by decide), if_pos rfl, dif_neg hdigit]
    congr 1
    exact he.symm

theorem repack_overflow {s : Sign} {m : ℕ} {e : ℤ} {hm : 0 < m} (h : 104 < e) :
    repack (.finite s m e hm) = .infinity s := by
  rw [repack, pack_finite, if_pos (by omega)]
  cases s <;> rfl

theorem repack_infinity (s : Sign) : repack (.infinity s) = .infinity s := by
  cases s <;> rfl

theorem repack_notANumber : repack .notANumber = .notANumber :=
  rfl

theorem repack_zero (s : Sign) : repack (.zero s) = .zero s := by
  cases s <;> rfl

def saturate (q : ℚ) : ℚ :=
  max (-2 ^ 128) (min q (2 ^ 128))

theorem saturate_mono : Monotone saturate := fun _ _ h =>
  max_le_max_left _ (min_le_min_right _ h)

theorem magnitude_pos {m : ℕ} (hm : 0 < m) (e : ℤ) : (0 : ℚ) < m * 2 ^ e :=
  mul_pos (by exact_mod_cast hm) (zpow_two_pos e)

theorem magnitude_lt {m : ℕ} {e : ℤ} (hm : m < 2 ^ 24) (he : e ≤ 104) : (m : ℚ) * 2 ^ e < 2 ^ 128 := by
  have hmost : (m : ℚ) < 2 ^ 24 := by exact_mod_cast hm
  calc (m : ℚ) * 2 ^ e < 2 ^ 24 * 2 ^ e := mul_lt_mul_of_pos_right hmost (zpow_two_pos e)
    _ ≤ 2 ^ 24 * 2 ^ (104 : ℤ) := mul_le_mul_of_nonneg_left (zpow_two_le he) (by norm_num)
    _ = 2 ^ 128 := by norm_num

theorem le_magnitude {m : ℕ} {e : ℤ} (hm : 2 ^ 23 ≤ m) (he : 105 ≤ e) : (2 : ℚ) ^ 128 ≤ m * 2 ^ e := by
  have hleast : (2 : ℚ) ^ 23 ≤ m := by exact_mod_cast hm
  calc (2 : ℚ) ^ 128 = 2 ^ 23 * 2 ^ (105 : ℤ) := by norm_num
    _ ≤ 2 ^ 23 * 2 ^ e := mul_le_mul_of_nonneg_left (zpow_two_le he) (by norm_num)
    _ ≤ m * 2 ^ e := mul_le_mul_of_nonneg_right hleast (zpow_two_pos e).le

theorem saturate_of_lt {s : Sign} {q : ℚ} (hpos : 0 < q) (hlt : q < 2 ^ 128) :
    saturate (signum s * q) = signum s * q := by
  unfold saturate
  cases s
  · rw [signum, neg_one_mul, min_eq_left (by linarith), max_eq_right (by linarith)]
  · rw [signum, one_mul, min_eq_left hlt.le, max_eq_right (by linarith)]

theorem saturate_of_le {s : Sign} {q : ℚ} (hle : 2 ^ 128 ≤ q) :
    saturate (signum s * q) = signum s * 2 ^ 128 := by
  unfold saturate
  cases s
  · rw [signum, neg_one_mul, neg_one_mul, min_eq_left (by linarith), max_eq_left (by linarith)]
  · rw [signum, one_mul, one_mul, min_eq_right hle, max_eq_right (by norm_num)]

theorem value_repack {u : UnpackedFloat} (h : Canonical u) :
    value (repack u) = saturate (value u) := by
  cases u with
  | notANumber => simp [repack_notANumber, value, saturate]
  | zero s => simp [repack_zero, value, saturate]
  | infinity s =>
    rw [repack_infinity, value, saturate_of_le le_rfl]
  | finite s m e hm =>
    by_cases he : e ≤ 104
    · rw [repack_finite ⟨h, he⟩, value, saturate_of_lt (magnitude_pos hm e) (magnitude_lt h.1 he)]
    · have hdigits : 2 ^ 23 ≤ m := h.2.2.resolve_right (by omega)
      rw [repack_overflow (by omega), value, value,
        saturate_of_le (le_magnitude hdigits (by omega))]

theorem isNaN_repack {u : UnpackedFloat} (h : Canonical u) (hfinite : u.isFinite = true) :
    (repack u).isNaN = false := by
  cases u with
  | notANumber => cases hfinite
  | infinity s => cases hfinite
  | zero s =>
    rw [repack_zero]
    rfl
  | finite s m e hm =>
    by_cases he : e ≤ 104
    · rw [repack_finite ⟨h, he⟩]
      rfl
    · rw [repack_overflow (by omega)]
      rfl

/-! ## Comparison -/

theorem magnitude_lt_magnitude {m m' : ℕ} {e e' : ℤ} (hm : m < 2 ^ 24) (hm' : 2 ^ 23 ≤ m')
    (he : e < e') : (m : ℚ) * 2 ^ e < m' * 2 ^ e' := by
  have hmost : (m : ℚ) < 2 ^ 24 := by exact_mod_cast hm
  have hleast : (2 : ℚ) ^ 23 ≤ m' := by exact_mod_cast hm'
  calc (m : ℚ) * 2 ^ e < 2 ^ 24 * 2 ^ e := mul_lt_mul_of_pos_right hmost (zpow_two_pos e)
    _ = 2 ^ (((24 : ℕ) : ℤ) + e) := (zpow_two_natAdd _ _).symm
    _ ≤ 2 ^ (((23 : ℕ) : ℤ) + e') := zpow_two_le (by omega)
    _ = 2 ^ 23 * 2 ^ e' := zpow_two_natAdd _ _
    _ ≤ m' * 2 ^ e' := mul_le_mul_of_nonneg_right hleast (zpow_two_pos e').le

theorem compare_magnitude {s s' : Sign} {m m' : ℕ} {e e' : ℤ} {hm : 0 < m} {hm' : 0 < m'}
    (h : Canonical (.finite s m e hm)) (h' : Canonical (.finite s' m' e' hm')) :
    compare ((m : ℚ) * 2 ^ e) (m' * 2 ^ e') = (compare e e').then (compare m m') := by
  rcases lt_trichotomy e e' with hlt | rfl | hgt
  · -- Above the least exponent a mantissa has all of its digits.
    have hdigits : 2 ^ 23 ≤ m' := h'.2.2.resolve_right (by have := h.2.1; omega)
    rw [compare_lt_iff_lt.2 hlt, compare_lt_iff_lt.2 (magnitude_lt_magnitude h.1 hdigits hlt)]
    rfl
  · have hscale := zpow_two_pos e
    rw [compare_eq_iff_eq.2 rfl, Ordering.eq_then]
    rcases lt_trichotomy m m' with hlt | rfl | hgt
    · have hcast : (m : ℚ) < m' := by exact_mod_cast hlt
      rw [compare_lt_iff_lt.2 hlt, compare_lt_iff_lt.2 (mul_lt_mul_of_pos_right hcast hscale)]
    · rw [compare_eq_iff_eq.2 rfl, compare_eq_iff_eq.2 rfl]
    · have hcast : (m' : ℚ) < m := by exact_mod_cast hgt
      rw [compare_gt_iff_gt.2 hgt, compare_gt_iff_gt.2 (mul_lt_mul_of_pos_right hcast hscale)]
  · have hdigits : 2 ^ 23 ≤ m := h.2.2.resolve_right (by have := h'.2.1; omega)
    rw [compare_gt_iff_gt.2 hgt, compare_gt_iff_gt.2 (magnitude_lt_magnitude h'.1 hdigits hgt)]
    rfl

theorem compare_neg (p q : ℚ) : compare (-p) (-q) = (compare p q).swap := by
  rcases lt_trichotomy p q with hlt | rfl | hgt
  · rw [compare_lt_iff_lt.2 hlt, compare_gt_iff_gt.2 (neg_lt_neg hlt)]
    rfl
  · rw [compare_eq_iff_eq.2 rfl, compare_eq_iff_eq.2 rfl]
    rfl
  · rw [compare_gt_iff_gt.2 hgt, compare_lt_iff_lt.2 (neg_lt_neg hgt)]
    rfl

/-- Two numbers of different kinds or signs are compared by kind and sign alone, two of one sign by
their exponents first. -/
theorem compare_eq_compare_value {u v : UnpackedFloat} (hu : u.isNaN = false) (hv : v.isNaN = false)
    (hfu : Fits u) (hfv : Fits v) : u.compare v = some (compare (value u) (value v)) := by
  have hlt {p q : ℚ} (h : p < q) : some Ordering.lt = some (compare p q) := by
    rw [compare_lt_iff_lt.2 h]
  have hgt {p q : ℚ} (h : q < p) : some Ordering.gt = some (compare p q) := by
    rw [compare_gt_iff_gt.2 h]
  have heq {p q : ℚ} (h : p = q) : some Ordering.eq = some (compare p q) := by
    rw [compare_eq_iff_eq.2 h]
  have hbounds {s : Sign} {m : ℕ} {e : ℤ} {hm : 0 < m} (h : Fits (.finite s m e hm)) :
      (0 : ℚ) < m * 2 ^ e ∧ (m : ℚ) * 2 ^ e < 2 ^ 128 :=
    ⟨magnitude_pos hm e, magnitude_lt h.1.1 h.2⟩
  cases u with
  | notANumber => cases hu
  | infinity s =>
    cases v with
    | notANumber => cases hv
    | infinity s' =>
      cases s <;> cases s' <;>
        first
        | exact heq rfl
        | exact hlt (by norm_num [value, signum])
        | exact hgt (by norm_num [value, signum])
    | zero s' =>
      cases s
      · exact hlt (by norm_num [value, signum])
      · exact hgt (by norm_num [value, signum])
    | finite s' m' e' hm' =>
      obtain ⟨hpos, hmost⟩ := hbounds hfv
      cases s <;> cases s' <;>
        first
        | exact hlt (by simp only [value, signum]; linarith)
        | exact hgt (by simp only [value, signum]; linarith)
  | zero s =>
    cases v with
    | notANumber => cases hv
    | infinity s' =>
      cases s'
      · exact hgt (by norm_num [value, signum])
      · exact hlt (by norm_num [value, signum])
    | zero s' => exact heq rfl
    | finite s' m' e' hm' =>
      obtain ⟨hpos, hmost⟩ := hbounds hfv
      cases s'
      · exact hgt (by simp only [value, signum]; linarith)
      · exact hlt (by simp only [value, signum]; linarith)
  | finite s m e hm =>
    obtain ⟨hpos, hmost⟩ := hbounds hfu
    cases v with
    | notANumber => cases hv
    | infinity s' =>
      cases s <;> cases s' <;>
        first
        | exact hlt (by simp only [value, signum]; linarith)
        | exact hgt (by simp only [value, signum]; linarith)
    | zero s' =>
      cases s
      · exact hlt (by simp only [value, signum]; linarith)
      · exact hgt (by simp only [value, signum]; linarith)
    | finite s' m' e' hm' =>
      obtain ⟨hpos', hmost'⟩ := hbounds hfv
      have hmagnitude := compare_magnitude hfu.1 hfv.1
      cases s <;> cases s'
      · simp only [value, signum, neg_one_mul, compare_neg, hmagnitude]
        rfl
      · exact hlt (by simp only [value, signum]; linarith)
      · exact hgt (by simp only [value, signum]; linarith)
      · simp only [value, signum, one_mul, hmagnitude]
        rfl

end ControlVoltage.Single

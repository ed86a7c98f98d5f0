import ControlVoltage.Proofs.Signal.Quantizer
import ControlVoltage.Proofs.Single.Nearness

/-!
# Snapping to semitones

The twelve shares of an octave are centred on its twelve semitones. Up to `2 ^ 16` volts all roundings
together move a voltage by less than a share reaches to either side of its semitone, so that a semitone
snaps to itself.

* `Scale.abs_fract_sub_le` : the degree is the one whose share the phase is in.
* `Scale.semitone` : the semitone that a voltage is nearest to, before any rounding.
* `Scale.abs_snap_sub_le` : the voltage that is snapped to is that semitone, up to rounding.
* `Scale.abs_snap_sub_self_le` : it is at most half a semitone away, up to rounding.
* `Scale.octave_snap`, `Scale.degree_snap` : a snapped voltage is at the same semitone.
* `Quantizer.chromatic_idempotent` : it snaps to itself, exactly.
-/

namespace ControlVoltage

open Single Float.Model.UnpackedFloat

namespace Scale

variable {v x y : Float32}

/-! ## Constants -/

theorem degrees_chromatic :
    ∀ i : Fin chromatic.degrees.size, chromatic.degrees[i.val] = i.val.toUInt32.toFloat32 := by
  decide

theorem exact_degree (i : ℕ) (h : i < chromatic.degrees.size) :
    chromatic.degrees[i].isFinite = true ∧ exact chromatic.degrees[i] = i := by
  have hcount : i.toUInt32.toNat = i := UInt32.toNat_ofNat_of_lt' (h.trans (by decide))
  have hless : i.toUInt32.toNat ≤ 2 ^ 24 := by
    rw [hcount]
    exact h.le.trans (by decide)
  rw [degrees_chromatic ⟨i, h⟩, exact_toFloat32_of_le hless, hcount]
  exact ⟨isFinite_toFloat32 _, rfl⟩

theorem exact_twelve : (Single.ofNat 12).isFinite = true ∧ exact (Single.ofNat 12) = 12 := by
  have hcount : (12 : ℕ).toUInt32.toNat = 12 := rfl
  refine ⟨isFinite_toFloat32 _, ?_⟩
  rw [Single.ofNat, exact_toFloat32_of_le (by rw [hcount]; norm_num), hcount]
  norm_num

theorem abs_share_sub_le (i : ℕ) (h : i < chromatic.degrees.size) :
    exact (chromatic.share i h) = fl (i / 12) ∧
      |exact (chromatic.share i h) - i / 12| ≤ 2 ^ (-25 : ℤ) := by
  obtain ⟨hfinite, hdegree⟩ := exact_degree i h
  obtain ⟨hnumber, hshare⟩ := exact_div hfinite inOctave_chromatic.modulo_finite
    inOctave_chromatic.modulo_pos.ne'
  rw [hdegree, show exact chromatic.modulo = 12 from exact_twelve.2] at hshare
  have hi : (i : ℚ) < 12 := by exact_mod_cast h
  refine ⟨hshare, (abs_exact_sub_le (k := 0) hnumber hshare (by norm_num) (by norm_num) ?_).2⟩
  rw [abs_of_nonneg (by positivity), zpow_zero]
  linarith

theorem abs_offset_sub_le : chromatic.offset.isFinite = true ∧
    |exact chromatic.offset - 1 / 24| ≤ 2 ^ (-25 : ℤ) := by
  have hunpack : chromatic.offset.toModel.unpack = .finite .positive 11184811 (-28) (by decide) := rfl
  refine ⟨by decide, ?_⟩
  rw [exact, hunpack, abs_le]
  norm_num [value, signum]

theorem abs_exact_le_of_bounds (hlow : -65536 ≤ v) (hhigh : v ≤ 65536) :
    v.isFinite = true ∧ |exact v| ≤ 2 ^ 16 := by
  have hmost : exact 65536 = 2 ^ 16 := by
    have hunpack : (65536 : Float32).toModel.unpack = .finite .positive 8388608 (-7) (by decide) := rfl
    rw [exact, hunpack]
    norm_num [value, signum]
  have hleast : exact (-65536) = -2 ^ 16 := by
    have hunpack : (-65536 : Float32).toModel.unpack = .finite .negative 8388608 (-7) (by decide) := rfl
    rw [exact, hunpack]
    norm_num [value, signum]
  refine ⟨isFinite_of_le (by decide) (by decide) hlow hhigh, ?_⟩
  rw [abs_le]
  exact ⟨hleast ▸ exact_le hlow, hmost ▸ exact_le hhigh⟩

theorem exact_scaling (hx : x.isFinite = true) :
    (x / chromatic.scaling).isFinite = true ∧ exact (x / chromatic.scaling) = exact x ∧
      (chromatic.scaling * x).isFinite = true ∧ exact (chromatic.scaling * x) = exact x := by
  have hone : exact chromatic.scaling = 1 := exact_one
  have hlt := (isFinite_iff (number_of_isFinite hx)).1 hx
  obtain ⟨hdiv, hquotient⟩ := exact_div hx inOctave_chromatic.scaling_finite
    inOctave_chromatic.scaling_pos.ne'
  obtain ⟨hmul, hproduct⟩ := exact_mul inOctave_chromatic.scaling_finite hx
  rw [hone, div_one, fl_exact hx] at hquotient
  rw [hone, one_mul, fl_exact hx] at hproduct
  exact ⟨(isFinite_iff hdiv).2 (hquotient ▸ hlt), hquotient, (isFinite_iff hmul).2 (hproduct ▸ hlt),
    hproduct⟩

/-! ## Shares of an octave -/

theorem degreeIndex_mem (hx : x.isFinite = true) :
    let twelfths := exact ((x - floor x) * Single.ofNat 12)
    let i := chromatic.degreeIndex (x - floor x)
    i ≤ twelfths ∧ twelfths ≤ i + 1 := by
  intro twelfths i
  obtain ⟨hlow, hhigh⟩ := phase_mem hx
  obtain ⟨hcount, htwelve⟩ := exact_twelve
  have hphase := isFinite_of_unit ⟨hlow, hhigh⟩
  have hpositive := Single.mul_nonneg hphase hcount hlow (ofNat_nonneg 12)
  have hnonneg : 0 ≤ twelfths := exact_nonneg hpositive
  obtain ⟨hnumber, hexact⟩ := exact_mul hphase hcount
  have hmost : twelfths ≤ 12 := by
    have hunit := exact_le hhigh
    rw [exact_one] at hunit
    calc twelfths = fl (exact (x - floor x) * exact (Single.ofNat 12)) := hexact
      _ ≤ fl (exact (Single.ofNat 12)) := fl_mono (by rw [htwelve]; linarith)
      _ = 12 := by rw [fl_exact hcount, htwelve]
  have hfinite : ((x - floor x) * Single.ofNat 12).isFinite = true := by
    refine (isFinite_iff hnumber).2 ?_
    rw [abs_of_nonneg hnonneg]
    exact hmost.trans_lt (by norm_num)
  have hindex : i = min (min ⌊twelfths⌋₊ 4294967295) 11 := by
    have hwhole : exact (floor ((x - floor x) * Single.ofNat 12)) = (⌊twelfths⌋₊ : ℚ) := by
      rw [(exact_floor hfinite).2, ← natCast_floor_eq_intCast_floor hnonneg]
    have hnat := toNat_toUInt32 (floor_nonneg hpositive)
    rw [hwhole, Nat.floor_natCast] at hnat
    exact congrArg (min · 11) hnat
  have hle := Nat.floor_le hnonneg
  have hlt := Nat.lt_floor_add_one twelfths
  rcases Nat.lt_or_ge ⌊twelfths⌋₊ 12 with hless | hmore
  · have hwhole : i = ⌊twelfths⌋₊ := by omega
    rw [hwhole]
    exact ⟨hle, hlt.le⟩
  · have hlast : i = 11 := by omega
    have htwelfths : (12 : ℚ) ≤ ⌊twelfths⌋₊ := by exact_mod_cast hmore
    rw [hlast]
    push_cast
    exact ⟨by linarith, by linarith⟩

theorem abs_fract_sub_le (hx : x.isFinite = true) :
    |Int.fract (exact x) - (chromatic.degreeIndex (x - floor x) + 1 / 2) / 12| ≤
      1 / 24 + 1 / 100000 := by
  obtain ⟨hleast, hmost⟩ := degreeIndex_mem hx
  obtain ⟨hlow, hhigh⟩ := phase_mem hx
  obtain ⟨hcount, htwelve⟩ := exact_twelve
  have hunit := exact_le hhigh
  have hnonneg := exact_nonneg hlow
  rw [exact_one] at hunit
  obtain ⟨hnumber, hexact⟩ := exact_phase hx
  obtain ⟨hphase, hrounded⟩ :=
    abs_exact_sub_le (k := 0) hnumber hexact (by norm_num) (by norm_num) (by
      rw [abs_of_nonneg (Int.fract_nonneg _), zpow_zero]
      exact Int.fract_lt_one _)
  obtain ⟨-, htwelfths⟩ := abs_mul_sub_le (k := 4) hphase hcount (by norm_num) (by norm_num) (by
    rw [htwelve, abs_of_nonneg (by linarith)]
    norm_num
    linarith)
  rw [htwelve] at htwelfths
  rw [abs_le] at htwelfths hrounded ⊢
  norm_num at htwelfths hrounded ⊢
  constructor <;> linarith

/-! ## Semitones -/

/-- The octaves that a voltage is above zero, moved up by half a semitone. -/
def octaves (v : Float32) : Float32 := (v + chromatic.offset) / chromatic.scaling

def degree (v : Float32) : ℕ := chromatic.degreeIndex (octaves v - floor (octaves v))

/-- The semitone that a voltage snaps to. -/
def semitone (v : Float32) : ℚ := ⌊exact (octaves v)⌋ + degree v / 12

theorem degree_lt (v : Float32) : degree v < chromatic.degrees.size := chromatic.degreeIndex_lt _

theorem abs_octaves_sub_le (hv : v.isFinite = true) (h : |exact v| ≤ 2 ^ 16 + 1) :
    (octaves v).isFinite = true ∧ |exact (octaves v) - (exact v + 1 / 24)| ≤ 1 / 250 := by
  obtain ⟨hoffset, hhalf⟩ := abs_offset_sub_le
  rw [abs_le] at h hhalf
  norm_num at h hhalf
  obtain ⟨hsum, hmoved⟩ := abs_add_sub_le (k := 17) hv hoffset (by norm_num) (by norm_num) (by
    rw [abs_lt]
    norm_num
    constructor <;> linarith)
  obtain ⟨hfinite, hexact, -⟩ := exact_scaling hsum
  refine ⟨hfinite, ?_⟩
  rw [show exact (octaves v) = _ from hexact]
  rw [abs_le] at hmoved ⊢
  norm_num at hmoved ⊢
  constructor <;> linarith

/-- The voltage that is snapped to is the semitone, up to rounding. -/
theorem abs_snap_sub_le (hv : v.isFinite = true) (h : |exact v| ≤ 2 ^ 16 + 1) :
    (chromatic.snap v).isFinite = true ∧
      exact (chromatic.snap v) = fl (⌊exact (octaves v)⌋ + fl (degree v / 12)) ∧
      |exact (chromatic.snap v) - semitone v| ≤ 1 / 250 := by
  obtain ⟨hfinite, hnear⟩ := abs_octaves_sub_le hv h
  obtain ⟨hshare, hsharenear⟩ := abs_share_sub_le (degree v) (degree_lt v)
  obtain ⟨hnumber, hheight⟩ := inOctave_chromatic.exact_height hfinite
  have hfloor := Int.floor_le (exact (octaves v))
  have hceil := Int.lt_floor_add_one (exact (octaves v))
  have hdegree : (degree v : ℚ) < 12 := by exact_mod_cast degree_lt v
  have hnonneg : (0 : ℚ) ≤ degree v := Nat.cast_nonneg _
  change exact (chromatic.height (octaves v)) =
    fl (⌊exact (octaves v)⌋ + exact (chromatic.share (degree v) (degree_lt v))) at hheight
  rw [abs_le] at h hnear hsharenear
  norm_num at h hnear hsharenear
  obtain ⟨hheightfinite, hrounded⟩ :=
    abs_exact_sub_le (k := 17) hnumber hheight (by norm_num) (by norm_num) (by
      rw [abs_lt]
      norm_num
      constructor <;> linarith)
  obtain ⟨-, -, hsnap, hexact⟩ := exact_scaling hheightfinite
  rw [hshare] at hheight
  refine ⟨hsnap, hexact.trans hheight, ?_⟩
  rw [show exact (chromatic.snap v) = _ from hexact, semitone]
  rw [abs_le] at hrounded ⊢
  norm_num at hrounded ⊢
  constructor <;> linarith

theorem abs_snap_sub_self_le (hv : v.isFinite = true) (h : |exact v| ≤ 2 ^ 16 + 1) :
    |exact (chromatic.snap v) - exact v| ≤ 1 / 20 := by
  obtain ⟨hfinite, hnear⟩ := abs_octaves_sub_le hv h
  obtain ⟨-, -, hsnap⟩ := abs_snap_sub_le hv h
  have hfract := abs_fract_sub_le hfinite
  change |Int.fract (exact (octaves v)) - (degree v + 1 / 2) / 12| ≤ _ at hfract
  rw [semitone] at hsnap
  rw [← Int.self_sub_floor] at hfract
  rw [abs_le] at hnear hsnap hfract ⊢
  constructor <;> linarith

/-! ## Snapping again -/

section again

variable (hv : v.isFinite = true) (h : |exact v| ≤ 2 ^ 16)
include hv h

theorem abs_exact_snap_le : |exact (chromatic.snap v)| ≤ 2 ^ 16 + 1 := by
  have hmoved := abs_snap_sub_self_le hv (h.trans (by norm_num))
  rw [abs_le] at h hmoved ⊢
  norm_num at h ⊢
  constructor <;> linarith

theorem abs_octaves_snap_sub_le : (octaves (chromatic.snap v)).isFinite = true ∧
    |exact (octaves (chromatic.snap v)) - (semitone v + 1 / 24)| ≤ 1 / 125 := by
  obtain ⟨hsnap, -, hsemitone⟩ := abs_snap_sub_le hv (h.trans (by norm_num))
  obtain ⟨hfinite, hnear⟩ := abs_octaves_sub_le hsnap (abs_exact_snap_le hv h)
  refine ⟨hfinite, ?_⟩
  rw [abs_le] at hnear hsemitone ⊢
  constructor <;> linarith

theorem octave_snap : ⌊exact (octaves (chromatic.snap v))⌋ = ⌊exact (octaves v)⌋ := by
  obtain ⟨-, hnear⟩ := abs_octaves_snap_sub_le hv h
  have hdegree : (degree v : ℚ) ≤ 11 := by exact_mod_cast Nat.le_of_lt_succ (degree_lt v)
  have hnonneg : (0 : ℚ) ≤ degree v := Nat.cast_nonneg _
  rw [semitone, abs_le] at hnear
  rw [Int.floor_eq_iff]
  constructor <;> linarith

theorem degree_snap : degree (chromatic.snap v) = degree v := by
  obtain ⟨hfinite, hnear⟩ := abs_octaves_snap_sub_le hv h
  have hfract := abs_fract_sub_le hfinite
  change |Int.fract (exact (octaves (chromatic.snap v))) -
    (degree (chromatic.snap v) + 1 / 2) / 12| ≤ _ at hfract
  rw [← Int.self_sub_floor, octave_snap hv h] at hfract
  rw [semitone] at hnear
  rw [abs_le] at hnear hfract
  -- The shares of two degrees are a twelfth apart at least.
  have hless : degree (chromatic.snap v) < degree v + 1 := by
    have : (degree (chromatic.snap v) : ℚ) < degree v + 1 := by linarith
    exact_mod_cast this
  have hmore : degree v < degree (chromatic.snap v) + 1 := by
    have : (degree v : ℚ) < degree (chromatic.snap v) + 1 := by linarith
    exact_mod_cast this
  omega

end again

theorem height_eq_height (hx : x.isFinite = true) (hy : y.isFinite = true)
    (hoctave : ⌊exact x⌋ = ⌊exact y⌋)
    (hdegree : chromatic.degreeIndex (x - floor x) = chromatic.degreeIndex (y - floor y)) :
    chromatic.height x = chromatic.height y := by
  -- The floors may be zeros of different signs. Only minus zero would tell them apart, and no share is
  -- minus zero.
  have hpositive : ∀ i : Fin chromatic.degrees.size,
      chromatic.share i.val i.isLt = 0 ∨ 0 < chromatic.share i.val i.isLt := by
    decide
  have hshare : ∀ i h, chromatic.share i h = 0 ∨ exact (chromatic.share i h) ≠ 0 := by
    refine fun i h => (hpositive ⟨i, h⟩).imp_right fun hlt => ?_
    rw [lt_iff_of_number rfl (number_of_le (Single.le_of_lt hlt)).2, exact_zero] at hlt
    exact hlt.ne'
  obtain ⟨hfloor, hexact⟩ := exact_floor hx
  obtain ⟨hfloor', hexact'⟩ := exact_floor hy
  have hsame : exact (floor x) = exact (floor y) := by rw [hexact, hexact', hoctave]
  simp only [height, hdegree]
  exact add_eq_add hfloor hfloor' hsame (hshare _ _)

end Scale

/-- Up to 65536 volts in both directions, snapping to semitones
* gives a semitone: a whole number of octaves and up to eleven twelfths, each sum rounded once;
* moves a voltage by a twentieth of a volt at most, which is half a semitone and the roundings;
* leaves alone what has been snapped before: it gives the same single again. -/
theorem Quantizer.chromatic_idempotent (v : Float32) (hlow : -65536 ≤ v) (hhigh : v ≤ 65536) :
    (∃ (n : ℤ) (i : ℕ), i < 12 ∧ exact (Quantizer.quantize .chromatic v) = fl (n + fl (i / 12))) ∧
      (Quantizer.quantize .chromatic v).isFinite = true ∧
      |exact (Quantizer.quantize .chromatic v) - exact v| ≤ 1 / 20 ∧
      Quantizer.quantize .chromatic (Quantizer.quantize .chromatic v) =
        Quantizer.quantize .chromatic v := by
  obtain ⟨hv, hbound⟩ := Scale.abs_exact_le_of_bounds hlow hhigh
  have hbound' : |exact v| ≤ 2 ^ 16 + 1 := hbound.trans (by norm_num)
  obtain ⟨hfinite, -⟩ := Scale.abs_octaves_sub_le hv hbound'
  obtain ⟨hwfinite, hw, -⟩ := Scale.abs_snap_sub_le hv hbound'
  refine ⟨⟨_, _, Scale.degree_lt v, hw⟩, hwfinite, Scale.abs_snap_sub_self_le hv hbound', ?_⟩
  obtain ⟨hagain, -⟩ := Scale.abs_octaves_snap_sub_le hv hbound
  exact congrArg (Scale.chromatic.scaling * ·)
    (Scale.height_eq_height hagain hfinite (Scale.octave_snap hv hbound) (Scale.degree_snap hv hbound))

/-- On the edge between two shares, and so far below zero that a semitone is only exact to a 512th of a
volt. -/
theorem Quantizer.chromatic_idempotent_edge :
    let v : Float32 := -65535.375
    let w := Quantizer.quantize .chromatic v
    v ≤ 65536 ∧ -65536 ≤ v ∧ w = -65535.33203125 ∧ Quantizer.quantize .chromatic w = w := by
  intro v w
  have hlow : -65536 ≤ v := by decide
  have hhigh : v ≤ 65536 := by decide
  exact ⟨hhigh, hlow, by decide, (Quantizer.chromatic_idempotent v hlow hhigh).2.2.2⟩

end ControlVoltage

import ControlVoltage.Proofs.Single.Order
import ControlVoltage.Proofs.Signal.Progress
import ControlVoltage.Signal.Quantizer
import ControlVoltage.Signal.Range

/-!
# Quantizers keep the order

Within an octave a larger voltage has a larger phase, and so a degree that is not lower. From one octave
to the next the order is kept since no degree is above the octave: the highest degree of the one octave
is at most where the other one starts.

* `Scale.InOctave` : a scale with its degrees in order, and all of them within the octave.
* `Scale.share` : how much of an octave a degree is.
* `Scale.height` : the voltage that a number of octaves snaps to, in octaves.
* `Scale.InOctave.snap_le_snap` : the larger of two voltages does not snap lower.
-/

namespace ControlVoltage

open Single

namespace Scale

/-- The octave has a size, the degrees are in order, and none is below the octave or above it. -/
structure InOctave (scale : Scale) : Prop where
  modulo_finite : scale.modulo.isFinite = true
  modulo_pos : 0 < exact scale.modulo
  scaling_finite : scale.scaling.isFinite = true
  scaling_pos : 0 < exact scale.scaling
  ordered : scale.degrees.toList.Pairwise (· ≤ ·)
  within : ∀ d ∈ scale.degrees, 0 ≤ d ∧ d ≤ scale.modulo

/-! ## Scales from settings -/

theorem pairwise_of_nonDecreasing {degrees : List Float32} (h : nonDecreasing degrees = true)
    (hnumber : ∀ d ∈ degrees, d.isNaN = false) : degrees.Pairwise (· ≤ ·) := by
  induction degrees with
  | nil => exact .nil
  | cons x rest ih =>
    cases rest with
    | nil => exact List.pairwise_singleton _ _
    | cons y rest =>
      rw [nonDecreasing, Bool.and_eq_true, Bool.not_eq_true', decide_eq_false_iff_not] at h
      have hrest := ih h.2 fun d hd => hnumber d (List.mem_cons_of_mem x hd)
      have hxy : x ≤ y := le_of_not_lt (hnumber y (by simp)) (hnumber x (by simp)) h.1
      refine List.pairwise_cons.2 ⟨fun d hd => ?_, hrest⟩
      rcases List.mem_cons.1 hd with rfl | hd
      · exact hxy
      · exact le_trans_of_le hxy ((List.pairwise_cons.1 hrest).1 d hd)

theorem exact_pos {x : Float32} (hfinite : x.isFinite = true) (h : ¬ x ≤ 0) : 0 < exact x := by
  rw [le_iff_of_number (number_of_isFinite hfinite) rfl, exact_zero] at h
  exact not_le.1 h

theorem inOctave_of_ofDegrees {degrees : Array Float32} {modulo scaling : Option Float32}
    {scale : Scale} (h : ofDegrees degrees modulo scaling = .ok scale)
    (hwithin : ∀ d ∈ scale.degrees, 0 ≤ d ∧ d ≤ scale.modulo) : scale.InOctave := by
  unfold ofDegrees at h
  simp only at h
  split_ifs at h with hempty hlong hmalformed hmodulo hscaling
  rw [Except.ok.injEq] at h
  subst h
  rw [Bool.or_eq_true, not_or, Bool.not_eq_true', Bool.not_eq_false, Bool.not_eq_true',
    Bool.not_eq_false] at hmalformed
  simp only [Bool.or_eq_true, Bool.not_eq_true', decide_eq_true_eq, not_or, Bool.not_eq_false]
    at hmodulo hscaling
  refine ⟨hmodulo.1, exact_pos hmodulo.1 hmodulo.2, hscaling.1, exact_pos hscaling.1 hscaling.2,
    pairwise_of_nonDecreasing hmalformed.2 fun d hd => ?_, hwithin⟩
  exact number_of_isFinite (Array.all_eq_true_iff_forall_mem.1 hmalformed.1 d (by simpa using hd))

theorem inOctave_chromatic : chromatic.InOctave where
  modulo_finite := by decide
  modulo_pos := exact_pos (by decide) (by decide)
  scaling_finite := by decide
  scaling_pos := exact_pos (by decide) (by decide)
  ordered := by
    have hfinite : chromatic.degrees.toList.all Float32.isFinite = true := by decide
    exact pairwise_of_nonDecreasing (by decide) fun d hd =>
      number_of_isFinite (List.all_eq_true.1 hfinite d hd)
  within := by
    have hall : chromatic.degrees.toList.all (fun d => decide (0 ≤ d ∧ d ≤ chromatic.modulo)) = true := by
      decide
    exact fun d hd => of_decide_eq_true (List.all_eq_true.1 hall d (Array.mem_toList_iff.2 hd))

/-! ## Within an octave -/

variable {scale : Scale} {i j : Nat} {p q x y : Float32}

def share (scale : Scale) (i : Nat) (h : i < scale.degrees.size) : Float32 :=
  scale.degrees[i] / scale.modulo

namespace InOctave

theorem degree_le (h : scale.InOctave) (hij : i ≤ j) (hj : j < scale.degrees.size) :
    scale.degrees[i] ≤ scale.degrees[j] := by
  rcases hij.lt_or_eq with hlt | rfl
  · exact List.pairwise_iff_getElem.1 h.ordered i j (by simpa using hlt.trans hj) (by simpa using hj) hlt
  · exact le_refl_of_number (number_of_le (h.within _ (Array.getElem_mem hj)).1).2

theorem isFinite_degree (h : scale.InOctave) (hi : i < scale.degrees.size) :
    scale.degrees[i].isFinite = true :=
  isFinite_of_le rfl h.modulo_finite (h.within _ (Array.getElem_mem hi)).1
    (h.within _ (Array.getElem_mem hi)).2

theorem share_mem (h : scale.InOctave) (hi : i < scale.degrees.size) :
    0 ≤ scale.share i hi ∧ scale.share i hi ≤ 1 := by
  obtain ⟨hlow, hhigh⟩ := h.within _ (Array.getElem_mem hi)
  obtain ⟨hnumber, hexact⟩ := exact_div (h.isFinite_degree hi) h.modulo_finite h.modulo_pos.ne'
  have hpart : exact scale.degrees[i] / exact scale.modulo ≤ 1 :=
    (div_le_one h.modulo_pos).2 (exact_le hhigh)
  have hnonneg : 0 ≤ exact scale.degrees[i] / exact scale.modulo :=
    div_nonneg (exact_nonneg hlow) h.modulo_pos.le
  rw [share, le_iff_of_number rfl hnumber, le_iff_of_number hnumber rfl, hexact, exact_zero,
    exact_one, ← fl_zero]
  refine ⟨fl_mono hnonneg, ?_⟩
  conv_rhs => rw [← fl_one]
  exact fl_mono hpart

theorem share_le (h : scale.InOctave) (hij : i ≤ j) (hj : j < scale.degrees.size) :
    scale.share i (hij.trans_lt hj) ≤ scale.share j hj :=
  div_le_div (h.isFinite_degree _) (h.isFinite_degree hj) h.modulo_finite h.modulo_pos
    (h.degree_le hij hj)

end InOctave

theorem degreeIndex_le (scale : Scale) (hp : 0 ≤ p) (hpq : p ≤ q) (hq : q ≤ 1) :
    scale.degreeIndex p ≤ scale.degreeIndex q := by
  have hcount : (Single.ofNat scale.degrees.size).isFinite = true := isFinite_toFloat32 _
  have hsize : 0 ≤ Single.ofNat scale.degrees.size := ofNat_nonneg _
  have hpfinite := isFinite_of_unit ⟨hp, le_trans_of_le hpq hq⟩
  have hqfinite := isFinite_of_unit ⟨le_trans_of_le hp hpq, hq⟩
  have hproduct := Single.mul_le_mul_right hpfinite hqfinite hcount hpq hsize
  have hfloor := ordered_floor.le hproduct
  have hlow : 0 ≤ floor (p * Single.ofNat scale.degrees.size) :=
    floor_nonneg (Single.mul_nonneg hpfinite hcount hp hsize)
  have hwhole := Nat.floor_mono (exact_le hfloor)
  unfold degreeIndex
  rw [toNat_toUInt32 hlow, toNat_toUInt32 (le_trans_of_le hlow hfloor)]
  omega

/-! ## Over the octaves -/

/-- What a number of octaves snaps to, in octaves. -/
def height (scale : Scale) (x : Float32) : Float32 :=
  floor x + scale.share (scale.degreeIndex (x - floor x)) (scale.degreeIndex_lt _)

theorem snap_eq (scale : Scale) (volts : Float32) :
    scale.snap volts = scale.scaling * scale.height ((volts + scale.offset) / scale.scaling) :=
  rfl

theorem exact_phase (hx : x.isFinite = true) :
    (x - floor x).isNaN = false ∧ exact (x - floor x) = fl (Int.fract (exact x)) := by
  obtain ⟨hfloor, hexact⟩ := exact_floor hx
  have hphase := exact_sub hx hfloor
  rwa [hexact, Int.self_sub_floor] at hphase

theorem phase_mem (hx : x.isFinite = true) : 0 ≤ x - floor x ∧ x - floor x ≤ 1 := by
  obtain ⟨hnumber, hexact⟩ := exact_phase hx
  rw [le_iff_of_number rfl hnumber, le_iff_of_number hnumber rfl, hexact, exact_zero, exact_one]
  constructor
  · rw [← fl_zero]
    exact fl_mono (Int.fract_nonneg _)
  · rw [← fl_one]
    exact fl_mono (Int.fract_lt_one _).le

theorem phase_le (hx : x.isFinite = true) (hy : y.isFinite = true) (hxy : x ≤ y)
    (hoctave : ⌊exact x⌋ = ⌊exact y⌋) : x - floor x ≤ y - floor y := by
  obtain ⟨hxnumber, hxexact⟩ := exact_phase hx
  obtain ⟨hynumber, hyexact⟩ := exact_phase hy
  rw [le_iff_of_number hxnumber hynumber, hxexact, hyexact]
  refine fl_mono ?_
  rw [← Int.self_sub_floor, ← Int.self_sub_floor, hoctave]
  linarith [exact_le hxy]

namespace InOctave

theorem isFinite_share (h : scale.InOctave) (hi : i < scale.degrees.size) :
    (scale.share i hi).isFinite = true :=
  isFinite_of_unit (h.share_mem hi)

theorem exact_height (h : scale.InOctave) (hx : x.isFinite = true) :
    (scale.height x).isNaN = false ∧ exact (scale.height x) = fl (⌊exact x⌋ +
      exact (scale.share (scale.degreeIndex (x - floor x)) (scale.degreeIndex_lt _))) := by
  obtain ⟨hfloor, hexact⟩ := exact_floor hx
  have hsum := exact_add hfloor (h.isFinite_share (scale.degreeIndex_lt (x - floor x)))
  rwa [hexact] at hsum

theorem ordered_height (h : scale.InOctave) : Ordered scale.height where
  finite x y hx hy hxy := by
    obtain ⟨hxnumber, hxexact⟩ := h.exact_height hx
    obtain ⟨hynumber, hyexact⟩ := h.exact_height hy
    rw [le_iff_of_number hxnumber hynumber, hxexact, hyexact]
    apply fl_mono
    rcases (Int.floor_mono (exact_le hxy)).lt_or_eq with hlt | hoctave
    · -- The lower one is at most at the end of its octave, and the other one is past it.
      have hnext : (⌊exact x⌋ : ℚ) + 1 ≤ ⌊exact y⌋ := by exact_mod_cast hlt
      have hlower := exact_le (h.share_mem (scale.degreeIndex_lt (x - floor x))).2
      have hupper := exact_nonneg (h.share_mem (scale.degreeIndex_lt (y - floor y))).1
      rw [exact_one] at hlower
      linarith
    · have hphase := phase_le hx hy hxy hoctave
      have hindex := scale.degreeIndex_le (phase_mem hx).1 hphase (phase_mem hy).2
      have hshare := exact_le (h.share_le hindex (scale.degreeIndex_lt _))
      rw [hoctave]
      linarith
  infinite s x hx := by
    have hfloor := ordered_floor.infinite s x hx
    exact (ordered_add_right (h.isFinite_share _)).infinite s _ hfloor

theorem number_offset (h : scale.InOctave) : scale.offset.isNaN = false := by
  have hhalf : (0.5 : Float32).isFinite = true := by decide
  have hproduct := (exact_mul hhalf h.scaling_finite).1
  exact (ordered_div h.modulo_finite h.modulo_pos).number hproduct

/-- The larger of two voltages does not snap lower. -/
theorem snap_le_snap (h : scale.InOctave) {v w : Float32} (hv : v.isFinite = true)
    (hw : w.isFinite = true) (hvw : v ≤ w) : scale.snap v ≤ scale.snap w := by
  have hmoved := add_le_add_right hv hw h.number_offset hvw
  have hoctaves := (ordered_div h.scaling_finite h.scaling_pos).le hmoved
  rw [snap_eq, snap_eq]
  exact (ordered_mul_left h.scaling_finite h.scaling_pos).le (h.ordered_height.le hoctaves)

end InOctave

end Scale

end ControlVoltage

import ControlVoltage.Single.Basic

/-!
# Comparisons of singles

`<` and `≤`, and what kind of number a single is, read off the unpacked numbers.
-/

namespace ControlVoltage.Single

open Float.Model Float.Model.UnpackedFloat

theorem lt_iff_compare (x y : Float32) :
    x < y ↔ x.toModel.unpack.compare y.toModel.unpack = some .lt := by
  change x.lt y = true ↔ _
  exact decide_eq_true_iff.trans beq_iff_eq

theorem le_iff_compare (x y : Float32) :
    x ≤ y ↔ (x.toModel.unpack.compare y.toModel.unpack).any Ordering.isLE = true := by
  change x.le y = true ↔ _
  exact decide_eq_true_iff

theorem isNaN_eq (x : Float32) : x.isNaN = x.toModel.unpack.isNaN := rfl

theorem isFinite_eq (x : Float32) : x.isFinite = x.toModel.unpack.isFinite := rfl

theorem unpack_zero : (0 : Float32).toModel.unpack = .zero .positive := rfl

end ControlVoltage.Single

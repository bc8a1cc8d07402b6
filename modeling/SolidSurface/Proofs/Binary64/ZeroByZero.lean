import SolidSurface.Proofs.Binary64.Coplanar

/-! # Zero by zero

A quotient of zeros is no number, and neither are products and sums of something that is none. A
product of zero with anything finite and a difference of two finite numbers that are alike are
zeros.
-/

namespace SolidSurface

namespace Binary64

open Float.Model
open Float.Model.UnpackedFloat

variable {x y : Float}

/-! ## Zeros -/

theorem isFinite_of_units_zero (hx : units? x = some 0) : x.isFinite = true := by
  have hpos := limit_pos
  exact isFinite_iff.mpr ⟨0, hx, by omega, by omega⟩

theorem units?_zero_mul (hx : units? x = some 0) (hy : y.isFinite = true) :
    units? (x * y) = some 0 := by
  have hpos := limit_pos
  obtain ⟨n, hn, -⟩ := isFinite_iff.mp hy
  rw [units?_mul (isFinite_of_units_zero hx) hy hx hn, zero_mul, roundedInt_zero,
    clamp_of_lt (by omega) (by omega)]

theorem units?_zero_add (hx : units? x = some 0) (hy : units? y = some 0) :
    units? (x + y) = some 0 := by
  have hsum : Alike (x + y) (0 + 0) :=
    Alike.add (hx.trans units?_zero.symm) (hy.trans units?_zero.symm)
  exact hsum.trans (by decide +kernel)

theorem units?_sub_alike (hx : x.isFinite = true) (h : Alike x y) : units? (x - y) = some 0 := by
  have hpos := limit_pos
  obtain ⟨m, hm, -⟩ := isFinite_iff.mp hx
  rw [units?_sub hx (h.isFinite_eq ▸ hx) hm (h ▸ hm), sub_self, roundedInt_zero,
    clamp_of_lt (by omega) (by omega)]

theorem exists_unpack_eq_zero (h : units? x = some 0) : ∃ s, x.toModel.unpack = .zero s := by
  have hnull : Vanishing x.toModel.unpack := isNull_of_units x h
  change unpackedUnits? x.toModel.unpack = some 0 at h
  cases hx : x.toModel.unpack with
  | zero s => exact ⟨s, rfl⟩
  | notANumber =>
      rw [hx] at h
      cases h
  | _ =>
      rw [hx] at hnull
      cases hnull

/-! ## No number -/

theorem unpack_eq_notANumber (h : units? x = none) : x.toModel.unpack = .notANumber := by
  change unpackedUnits? x.toModel.unpack = none at h
  cases hx : x.toModel.unpack with
  | notANumber => rfl
  | _ =>
      rw [hx] at h
      cases h

theorem units?_notANumber : units? (.ofModel (.pack .notANumber)) = none :=
  units?_ofModel_pack (u := .notANumber) trivial

theorem beq_self_eq_false (h : units? x = none) : (x == x) = false := by
  refine Bool.eq_false_iff.mpr fun hx => ?_
  obtain ⟨m, hm, -⟩ := beq_iff.mp hx
  cases h.symm.trans hm

theorem units?_zero_div_zero (hx : units? x = some 0) (hy : units? y = some 0) :
    units? (x / y) = none := by
  obtain ⟨s, hs⟩ := exists_unpack_eq_zero hx
  obtain ⟨t, ht⟩ := exists_unpack_eq_zero hy
  change units? (.ofModel (.pack (UnpackedFloat.div _ x.toModel.unpack y.toModel.unpack))) = none
  rw [hs, ht]
  exact units?_notANumber

theorem units?_mul_of_right_none (x : Float) (hy : units? y = none) : units? (x * y) = none := by
  change units? (.ofModel (.pack (UnpackedFloat.mul _ x.toModel.unpack y.toModel.unpack))) = none
  rw [unpack_eq_notANumber hy]
  cases x.toModel.unpack with
  | _ => exact units?_notANumber

theorem units?_add_of_right_none (x : Float) (hy : units? y = none) : units? (x + y) = none := by
  change units? (.ofModel (.pack (UnpackedFloat.add _ x.toModel.unpack y.toModel.unpack))) = none
  rw [unpack_eq_notANumber hy]
  cases x.toModel.unpack with
  | _ => exact units?_notANumber

end Binary64

open Binary64

theorem Vec3.units?_dot_zero {v w : Vec3 Float} (hv : ∀ i, units? (v.get i) = some 0)
    (hw : ∀ i, (w.get i).isFinite = true) : units? (v.dot w) = some 0 :=
  units?_zero_add (units?_zero_add (units?_zero_mul (hv .x) (hw .x))
    (units?_zero_mul (hv .y) (hw .y))) (units?_zero_mul (hv .z) (hw .z))

theorem Vec3.alike_dot {u v w : Vec3 Float} (h : ∀ i, Alike (v.get i) (w.get i)) :
    Alike (u.dot v) (u.dot w) :=
  (((Alike.refl _).mul (h .x)).add ((Alike.refl _).mul (h .y))).add ((Alike.refl _).mul (h .z))

end SolidSurface

import Mathlib.Algebra.Order.Round
import Mathlib.Analysis.SpecialFunctions.Trigonometric.Basic
import SolidSurface.Proofs.Scalar.Fraction

/-! # Real numbers

Among the exact scalars the real numbers are those with roots of everything that is not negative.
-/

namespace SolidSurface

def RealNumber : Type := ℝ

namespace RealNumber

noncomputable instance : Field RealNumber := inferInstanceAs (Field ℝ)

noncomputable instance : LinearOrder RealNumber := inferInstanceAs (LinearOrder ℝ)

instance : IsStrictOrderedRing RealNumber := inferInstanceAs (IsStrictOrderedRing ℝ)

noncomputable instance : FloorRing RealNumber := inferInstanceAs (FloorRing ℝ)

noncomputable instance : Scalar RealNumber where
  decideLT := inferInstance
  decideLE := inferInstance
  ofNat n := (n : RealNumber)
  decimal m k := (m : RealNumber) / (10 ^ k : Nat)
  infinity := (2 ^ 1024 : Nat)
  epsilon := ((2 ^ 52 : Nat) : RealNumber)⁻¹
  minNormal := ((2 ^ 1022 : Nat) : RealNumber)⁻¹
  pi := Real.pi
  sqrt := Real.sqrt
  abs x := |x|
  floor x := (⌊x⌋ : RealNumber)
  ceil x := (⌈x⌉ : RealNumber)
  round x := if 0 ≤ x then (round x : RealNumber) else -(round (-x) : RealNumber)
  sin := Real.sin
  cos := Real.cos
  toNat x := ⌊x⌋.toNat
  wrapIndex n := n
  mulAdd x y z := x * y + z
  isFinite _ := true
  totalLE x y := decide (x ≤ y)

theorem decimal_eq_div (m k : Nat) : (Scalar.decimal m k : RealNumber) = m / 10 ^ k :=
  congrArg ((m : RealNumber) / ·) (Nat.cast_pow 10 k)

noncomputable instance : FieldScalar RealNumber where
  __ := (inferInstance : Scalar RealNumber)
  __ := (inferInstance : Field RealNumber)
  __ := (inferInstance : LinearOrder RealNumber)
  __ := (inferInstance : IsStrictOrderedRing RealNumber)
  beq_iff _ _ := beq_iff_eq
  isFinite_eq _ := rfl
  totalLE_iff _ _ := decide_eq_true_iff
  ofNat_eq _ := rfl
  decimal_eq := decimal_eq_div
  abs_eq _ := rfl
  mulAdd_eq _ _ _ := rfl

theorem exists_round_eq (x : RealNumber) : ∃ z : ℤ, Scalar.round x = z ∧ |x - z| ≤ 1 / 2 := by
  by_cases h : 0 ≤ x
  · exact ⟨round x, if_pos h, abs_sub_round x⟩
  · refine ⟨-round (-x), (if_neg h).trans (Int.cast_neg _).symm, ?_⟩
    rw [Int.cast_neg, sub_neg_eq_add, ← abs_neg, neg_add']
    exact abs_sub_round (-x)

noncomputable instance : CountingScalar RealNumber where
  exists_round_eq := exists_round_eq
  toNat_natCast n := by
    change ⌊((n : RealNumber))⌋.toNat = n
    rw [Int.floor_natCast, Int.toNat_natCast]
  wrapIndex_eq _ := rfl

noncomputable instance : MeasuringScalar RealNumber where
  exists_ceil_eq a := ⟨⌈a⌉, rfl, Int.le_ceil a, Int.ceil_lt_add_one a⟩

theorem sqrt_mul_sqrt {x : RealNumber} (hx : 0 ≤ x) : Scalar.sqrt x * Scalar.sqrt x = x :=
  Real.mul_self_sqrt hx

theorem sqrt_nonneg (x : RealNumber) : 0 ≤ Scalar.sqrt x :=
  Real.sqrt_nonneg x

theorem inv_two_pow_pos (k : Nat) : 0 < ((2 ^ k : Nat) : RealNumber)⁻¹ :=
  inv_pos.mpr (Nat.cast_pos.mpr (Nat.two_pow_pos k))

theorem inv_two_pow_lt_one {k : Nat} (hk : k ≠ 0) : ((2 ^ k : Nat) : RealNumber)⁻¹ < 1 :=
  inv_lt_one_of_one_lt₀ (Nat.one_lt_cast.mpr (Nat.one_lt_two_pow hk))

theorem minNormal_pos : (0 : RealNumber) < Scalar.minNormal :=
  inv_two_pow_pos 1022

theorem minNormal_lt_one : (Scalar.minNormal : RealNumber) < 1 :=
  inv_two_pow_lt_one (show 1022 ≠ 0 by decide)

end RealNumber

end SolidSurface

import Mathlib.Algebra.Order.Round
import Mathlib.Data.Rat.Floor
import Mathlib.Data.Rat.Sqrt
import Mathlib.Tactic.Linarith
import SolidSurface.Proofs.Scalar.Field
import SolidSurface.Mesh.Key

/-! # Fractions

The rational numbers are an ordered field that can be computed with. Roots of squares are exact;
sine and cosine are the first terms of their series.
-/

namespace SolidSurface

def Fraction : Type := ℚ

namespace Fraction

instance : Field Fraction := inferInstanceAs (Field ℚ)

instance : LinearOrder Fraction := inferInstanceAs (LinearOrder ℚ)

instance : IsStrictOrderedRing Fraction := inferInstanceAs (IsStrictOrderedRing ℚ)

instance : FloorRing Fraction := inferInstanceAs (FloorRing ℚ)

instance : Scalar Fraction where
  decideLT := inferInstance
  decideLE := inferInstance
  ofNat n := (n : Fraction)
  decimal m k := (m : Fraction) / 10 ^ k
  infinity := 2 ^ 1024
  epsilon := 1 / 2 ^ 52
  minNormal := 1 / 2 ^ 1022
  pi := 355 / 113
  sqrt x := Rat.sqrt x
  abs x := |x|
  floor x := (⌊x⌋ : Fraction)
  ceil x := (⌈x⌉ : Fraction)
  round x := if 0 ≤ x then (⌊x + 1 / 2⌋ : Fraction) else (⌈x - 1 / 2⌉ : Fraction)
  sin x := x - x ^ 3 / 6
  cos x := 1 - x ^ 2 / 2
  toNat x := ⌊x⌋.toNat
  wrapIndex n := n
  mulAdd x y z := x * y + z
  isFinite _ := true
  totalLE x y := decide (x ≤ y)

instance : FieldScalar Fraction where
  __ := (inferInstance : Scalar Fraction)
  __ := (inferInstance : Field Fraction)
  __ := (inferInstance : LinearOrder Fraction)
  __ := (inferInstance : IsStrictOrderedRing Fraction)
  beq_iff _ _ := beq_iff_eq
  isFinite_eq _ := rfl
  totalLE_iff _ _ := decide_eq_true_iff
  ofNat_eq _ := rfl
  decimal_eq _ _ := rfl
  abs_eq _ := rfl
  mulAdd_eq _ _ _ := rfl

theorem exists_round_eq (x : Fraction) : ∃ z : ℤ, Scalar.round x = z ∧ |x - z| ≤ 1 / 2 := by
  by_cases h : 0 ≤ x
  · refine ⟨⌊x + 1 / 2⌋, if_pos h, abs_le.mpr ⟨?_, ?_⟩⟩
    · have := Int.floor_le (x + 1 / 2)
      linarith
    · have := Int.lt_floor_add_one (x + 1 / 2)
      linarith
  · refine ⟨⌈x - 1 / 2⌉, if_neg h, abs_le.mpr ⟨?_, ?_⟩⟩
    · have := Int.ceil_lt_add_one (x - 1 / 2)
      linarith
    · have := Int.le_ceil (x - 1 / 2)
      linarith

instance : CountingScalar Fraction where
  exists_round_eq := exists_round_eq
  toNat_natCast n := by
    change ⌊((n : Fraction))⌋.toNat = n
    rw [Int.floor_natCast, Int.toNat_natCast]
  wrapIndex_eq _ := rfl

instance : MeasuringScalar Fraction where
  exists_ceil_eq a := ⟨⌈a⌉, rfl, Int.le_ceil a, Int.ceil_lt_add_one a⟩

instance : Hashable Fraction where
  hash x := hash (Rat.num x, Rat.den x)

instance : Keyed Fraction Fraction where
  key x := x
  value x := x

end Fraction

end SolidSurface

import Mathlib.Algebra.Order.Field.Basic
import Mathlib.Algebra.Order.Ring.Int
import Mathlib.Order.WithBot
import Mathlib.Tactic.NormNum
import SolidSurface.Scalar

/-! # Exact arithmetic

Statements about exact arithmetic are made over any ordered field. Roots, angles and the constants
of a floating-point format are whatever the field has for them.
-/

namespace SolidSurface

/-- Scalars that compute without rounding. -/
class FieldScalar (α : Type) extends
    Scalar α, Field α, LinearOrder α, IsStrictOrderedRing α where
  beq_iff (a b : α) : (a == b) = true ↔ a = b
  isFinite_eq (a : α) : Scalar.isFinite a = true
  totalLE_iff (a b : α) : Scalar.totalLE a b = true ↔ a ≤ b
  ofNat_eq (n : Nat) : Scalar.ofNat n = (n : α)
  decimal_eq (m k : Nat) : Scalar.decimal m k = (m : α) / 10 ^ k
  abs_eq (a : α) : Scalar.abs a = |a|
  mulAdd_eq (a b c : α) : Scalar.mulAdd a b c = a * b + c

/-- Exact scalars that whole numbers can be read back from. -/
class CountingScalar (α : Type) extends FieldScalar α where
  exists_round_eq (a : α) : ∃ z : ℤ, Scalar.round a = z ∧ |a - z| ≤ 1 / 2
  toNat_natCast (n : Nat) : Scalar.toNat (n : α) = n
  /-- Indices do not run over. -/
  wrapIndex_eq (n : Nat) : Scalar.wrapIndex α n = n

/-- Exact scalars that are rounded up to whole numbers. -/
class MeasuringScalar (α : Type) extends CountingScalar α where
  exists_ceil_eq (a : α) : ∃ z : ℤ, Scalar.ceil a = z ∧ a ≤ z ∧ (z : α) < a + 1

variable {α : Type}

/-- A limit as an element of the field with a top. -/
def Extended.toWithTop : Extended α → WithTop α
  | val x => x
  | infinity => ⊤

@[simp] theorem Extended.toWithTop_val (x : α) : (val x).toWithTop = x := rfl

@[simp] theorem Extended.toWithTop_infinity : (infinity : Extended α).toWithTop = ⊤ := rfl

variable [FieldScalar α]

namespace Scalar

@[simp] theorem beq_self (a : α) : (a == a) = true :=
  (FieldScalar.beq_iff a a).mpr rfl

theorem max_eq (a b : α) : Scalar.max a b = Max.max a b := by
  rw [Scalar.max, beq_self, Bool.not_true, Bool.or_false]
  by_cases h : a < b
  · rw [if_pos (decide_eq_true h), max_eq_right h.le]
  · rw [if_neg (by simpa using h), max_eq_left (not_lt.mp h)]

theorem min_eq (a b : α) : Scalar.min a b = Min.min a b := by
  rw [Scalar.min, beq_self, Bool.not_true, Bool.or_false]
  by_cases h : b < a
  · rw [if_pos (decide_eq_true h), min_eq_right h.le]
  · rw [if_neg (by simpa using h), min_eq_left (not_lt.mp h)]

theorem half_eq : (Scalar.half : α) = 1 / 2 := by
  rw [Scalar.half, FieldScalar.decimal_eq]
  norm_num

theorem isPositive_iff (a : α) : Scalar.isPositive a = true ↔ 0 < a := by
  rw [Scalar.isPositive, FieldScalar.isFinite_eq, Bool.true_and, decide_eq_true_iff]

theorem round_natCast {β : Type} [CountingScalar β] (n : Nat) : Scalar.round (n : β) = n := by
  obtain ⟨z, hz, hnear⟩ := CountingScalar.exists_round_eq (n : β)
  have hlt : |((n - z : ℤ) : β)| < 1 := by
    push_cast
    exact hnear.trans_lt (by norm_num)
  have heq : (n : ℤ) - z = 0 := Int.abs_lt_one_iff.mp (by exact_mod_cast hlt)
  rw [hz, show z = n by omega, Int.cast_natCast]

/-- When every step of a fold adds a term to what is measured, the fold adds their sum. -/
theorem measure_foldl {β γ : Type} (measure : β → α) {term : γ → α} {step : β → γ → β}
    (hstep : ∀ b c, measure (step b c) = measure b + term c) (cs : List γ) (b : β) :
    measure (cs.foldl step b) = measure b + (cs.map term).sum := by
  induction cs generalizing b with
  | nil => exact (add_zero _).symm
  | cons c cs ih => rw [List.foldl_cons, ih, hstep, List.map_cons, List.sum_cons, add_assoc]

end Scalar

namespace Extended

theorem lt_eq_true_iff {a b : Extended α} : a.lt b = true ↔ a.toWithTop < b.toWithTop := by
  cases a with
  | val x =>
      cases b with
      | val y => simp [lt]
      | infinity => simp [lt, FieldScalar.isFinite_eq]
  | infinity => simp [lt]

theorem le_eq_true_iff {a b : Extended α} : a.le b = true ↔ a.toWithTop ≤ b.toWithTop := by
  cases a with
  | val x =>
      cases b with
      | val y => simp [le]
      | infinity => simp [le]
  | infinity =>
      cases b with
      | val y => simp [le, FieldScalar.isFinite_eq]
      | infinity => simp [le]

theorem toWithTop_capAt (a : Extended α) (y : α) :
    (a.capAt y).toWithTop = min a.toWithTop y := by
  cases a with
  | val x => rw [capAt, Scalar.min_eq, toWithTop_val, toWithTop_val, WithTop.coe_min]
  | infinity =>
      rw [capAt, if_pos (Scalar.beq_self y), toWithTop_val, toWithTop_infinity, min_top_left]

end Extended

end SolidSurface

import SolidSurface.Proofs.Binary64.Units
import SolidSurface.Proofs.Scalar.Field

/-! # Comparison

Comparisons are exact in every arithmetic. What they need to be an order is only that both sides are
numbers, that is, equal to themselves; a comparison with anything else fails.
-/

namespace SolidSurface

/-- Scalars that compare like the elements of a linear order as far as they are numbers. -/
class ComparableScalar (α : Type) [Scalar α] : Prop where
  le_trans {a b c : α} : a ≤ b → b ≤ c → a ≤ c
  le_total {a b : α} : (a == a) = true → (b == b) = true → a ≤ b ∨ b ≤ a
  not_lt_of_le {a b : α} : a ≤ b → ¬b < a
  infinity_beq_self : ((Scalar.infinity : α) == Scalar.infinity) = true
  neg_infinity_beq_self : (-(Scalar.infinity : α) == -Scalar.infinity) = true

instance {α : Type} [FieldScalar α] : ComparableScalar α where
  le_trans := le_trans
  le_total _ _ := le_total _ _
  not_lt_of_le := not_lt_of_ge
  infinity_beq_self := Scalar.beq_self _
  neg_infinity_beq_self := Scalar.beq_self _

namespace Binary64

instance : ComparableScalar Float where
  le_trans := Binary64.le_trans
  le_total := le_total_of_beq_self
  not_lt_of_le := Binary64.not_lt_of_le
  infinity_beq_self := by decide +kernel
  neg_infinity_beq_self := by decide +kernel

end Binary64

end SolidSurface

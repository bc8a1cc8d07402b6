import SolidSurface.Box
import SolidSurface.Scalar.DecimalText

/-! # Solids

A solid answers whether it contains a point and declares a box around itself. Nothing forces the
declaration to be true: a solid that is inside somewhere outside its bounds is still a solid, and
the surface extractors report it.
-/

namespace SolidSurface

structure Solid (α : Type) where
  bounds : Box α
  contains : Point α → Bool

/-- The combinations that are defined for any positive number of operands. -/
inductive Combination where
  | union
  | intersection
  deriving DecidableEq, Repr

/-- Reasons for which a solid or an estimator of its surface cannot be made. -/
inductive ConstructionError (α : Type) where
  | invalidRadius (radius : α)
  | unboundedCorner
  | zeroLengthAxis
  | noOperands (combination : Combination)
  | tooFewProbes (count : Nat)
  | invalidProbeRadius (radius : α)
  deriving DecidableEq, Repr

def Combination.name : Combination → String
  | union => "union"
  | intersection => "intersection"

def ConstructionError.message : ConstructionError Float → String
  | invalidRadius r => "invalid radius: " ++ Binary64.text r
  | unboundedCorner => "bounds must be finite"
  | zeroLengthAxis => "cylinder axis has zero length"
  | noOperands c => c.name ++ " needs at least one operand"
  | tooFewProbes n =>
    "invalid estimator configuration: normal_samples must be at least 4, got " ++ toString n
  | invalidProbeRadius r =>
    "invalid estimator configuration: normal_epsilon must be positive, got " ++ Binary64.text r

end SolidSurface

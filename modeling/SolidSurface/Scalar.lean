/-! # Scalars

The geometry of this library is written once, over the operations collected in `Scalar`.
Binary floating point is one instance; an ordered field with square roots is another, and
statements about exact arithmetic are statements about that instance.
-/

namespace SolidSurface

/-- The arithmetic that coordinates are computed in. -/
class Scalar (α : Type) extends
    Zero α, One α, Add α, Sub α, Mul α, Div α, Neg α, LT α, LE α, BEq α where
  decideLT : DecidableLT α
  decideLE : DecidableLE α
  ofNat : Nat → α
  /-- `decimal m k` stands for `m / 10 ^ k`. -/
  decimal : Nat → Nat → α
  /-- The outermost coordinate. Floating point has `+∞`; a field may use any positive value, since
  only the corners of the empty box and limits without end are written with it. -/
  infinity : α
  /-- Relative spacing of scalars near one. -/
  epsilon : α
  /-- Smallest positive scalar of full precision. -/
  minNormal : α
  pi : α
  sqrt : α → α
  abs : α → α
  floor : α → α
  ceil : α → α
  /-- Nearest integer, halves away from zero. -/
  round : α → α
  sin : α → α
  cos : α → α
  /-- Integer part, zero for anything that is not positive. -/
  toNat : α → Nat
  /-- Counts and indices are reduced by this after every step that could leave their range. -/
  wrapIndex : Nat → Nat
  /-- `mulAdd x y z` is `x * y + z`, rounded once. -/
  mulAdd : α → α → α → α
  isFinite : α → Bool
  /-- A total order that extends the numerical one. -/
  totalLE : α → α → Bool

namespace Scalar

variable {α : Type} [Scalar α]

@[reducible] instance : DecidableLT α := Scalar.decideLT

@[reducible] instance : DecidableLE α := Scalar.decideLE

@[inline] def half : α := decimal 5 1

/-- The larger of two scalars; one that is not equal to itself yields to the other. -/
@[inline] def max (a b : α) : α :=
  if a < b || !(a == a) then b else a

/-- The smaller of two scalars; one that is not equal to itself yields to the other. -/
@[inline] def min (a b : α) : α :=
  if b < a || !(a == a) then b else a

/-- A finite scalar above zero. -/
@[inline] def isPositive (a : α) : Bool :=
  isFinite a && decide (0 < a)

/-- Closed unit interval. -/
@[inline] def inUnit (a : α) : Bool :=
  decide (0 ≤ a) && decide (a ≤ 1)

end Scalar

/-- A scalar or an upper limit that no scalar exceeds. -/
inductive Extended (α : Type) where
  | val (x : α)
  | infinity

namespace Extended

variable {α : Type} [Scalar α]

/-- Strict comparison. Below infinity lies every scalar that is not itself infinite. -/
@[inline] def lt : Extended α → Extended α → Bool
  | val x, val y => decide (x < y)
  | val x, infinity => Scalar.isFinite x || decide (x < 0)
  | infinity, _ => false

@[inline] def le : Extended α → Extended α → Bool
  | val x, val y => decide (x ≤ y)
  | val x, infinity => x == x
  | infinity, val y => !Scalar.isFinite y && decide (0 < y)
  | infinity, infinity => true

/-- The smaller of a limit and a scalar; a scalar that is not equal to itself changes nothing. -/
@[inline] def capAt : Extended α → α → Extended α
  | val x, y => val (Scalar.min x y)
  | infinity, y => if y == y then val y else infinity

@[inline] def toScalar : Extended α → α
  | val x => x
  | infinity => Scalar.infinity

end Extended

end SolidSurface

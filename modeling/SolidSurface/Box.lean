import SolidSurface.Vec

/-! # Axis-aligned boxes

A box is closed and may be empty: it is so when some lower coordinate exceeds the upper one.
-/

namespace SolidSurface

structure Box (α : Type) where
  lower : Point α
  upper : Point α
  deriving DecidableEq, Repr

namespace Box

variable {α : Type} [Scalar α]

/-- The box with the two given corners, which may be any opposite pair. -/
@[inline] def spanning (a b : Point α) : Box α :=
  ⟨a.inf b, a.sup b⟩

/-- Holds no point. -/
@[inline] def empty : Box α :=
  ⟨Vec3.repeated Scalar.infinity, Vec3.repeated (-Scalar.infinity)⟩

/-- Equality of all coordinates in the sense of the scalars. -/
@[inline] def coincides (b c : Box α) : Bool :=
  b.lower.coincides c.lower && b.upper.coincides c.upper

@[inline] def isEmpty (b : Box α) : Bool :=
  decide (b.upper.x < b.lower.x) || decide (b.upper.y < b.lower.y) ||
    decide (b.upper.z < b.lower.z)

def isValid (b : Box α) : Bool :=
  b.lower.isFinite && b.upper.isFinite && !b.isEmpty

@[inline] def size (b : Box α) : Vec3 α :=
  b.upper - b.lower

@[inline] def center (b : Box α) : Point α :=
  b.lower.midpoint b.upper

def volume (b : Box α) : α :=
  if b.isEmpty then 0 else 1 * b.size.x * b.size.y * b.size.z

/-- Area of the six faces; the products are accumulated with single roundings. -/
@[specialize] def surfaceArea (b : Box α) : α :=
  if b.isEmpty then 0
  else
    let s := b.size
    Scalar.ofNat 2 * Scalar.mulAdd s.z s.x (Scalar.mulAdd s.x s.y (s.y * s.z))

/-- Corner `c` is upper along x, y or z when bit 0, 1 or 2 of `c` is set. -/
@[inline] def corner (b : Box α) (c : Nat) : Point α :=
  ⟨if c.testBit 0 then b.upper.x else b.lower.x,
   if c.testBit 1 then b.upper.y else b.lower.y,
   if c.testBit 2 then b.upper.z else b.lower.z⟩

def corners (b : Box α) : List (Point α) :=
  (List.range 8).map b.corner

@[inline] def contains (b : Box α) (p : Point α) : Bool :=
  decide (b.lower.x ≤ p.x) && decide (p.x ≤ b.upper.x) &&
    (decide (b.lower.y ≤ p.y) && decide (p.y ≤ b.upper.y)) &&
    (decide (b.lower.z ≤ p.z) && decide (p.z ≤ b.upper.z))

@[inline] def intersection (b c : Box α) : Box α :=
  ⟨b.lower.sup c.lower, b.upper.inf c.upper⟩

/-- The smallest box around two boxes, of which an empty one does not count. -/
@[inline] def union (b c : Box α) : Box α :=
  if b.isEmpty then c
  else if c.isEmpty then b
  else ⟨b.lower.inf c.lower, b.upper.sup c.upper⟩

/-- The smallest box around a list of boxes, taken in order. -/
@[inline] def unionAll (bs : List (Box α)) : Box α :=
  bs.foldl union empty

/-- The point of a box nearest to `p`. -/
@[inline] def clamp (b : Box α) (p : Point α) : Point α :=
  (p.sup b.lower).inf b.upper

@[inline] def distanceSquared (b : Box α) (p : Point α) : α :=
  (p - b.clamp p).normSquared

end Box

end SolidSurface

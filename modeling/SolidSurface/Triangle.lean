import SolidSurface.Box

/-! # Triangles

Seen from the front of a triangle its corners `a`, `b`, `c` run counter-clockwise.
-/

namespace SolidSurface

structure Triangle (α : Type) where
  a : Point α
  b : Point α
  c : Point α
  deriving DecidableEq, Repr

namespace Triangle

section Structure

variable {α β : Type}

@[inline] def map (f : Point α → Point β) (t : Triangle α) : Triangle β :=
  ⟨f t.a, f t.b, f t.c⟩

@[inline] def corners (t : Triangle α) : List (Point α) :=
  [t.a, t.b, t.c]

/-- The directed sides, each from a corner to the next. -/
@[inline] def sides (t : Triangle α) : List (Point α × Point α) :=
  [(t.a, t.b), (t.b, t.c), (t.c, t.a)]

end Structure

variable {α : Type} [Scalar α]

@[inline] def bounds (t : Triangle α) : Box α :=
  ⟨(t.a.inf t.b).inf t.c, (t.a.sup t.b).sup t.c⟩

/-- Twice the area, along the normal of the front. -/
@[inline] def cross (t : Triangle α) : Vec3 α :=
  (t.b - t.a).cross (t.c - t.a)

/-- Unit normal of the front, unless the triangle has no area worth dividing by. -/
@[specialize] def normal? (t : Triangle α) : Option (Vec3 α) :=
  let n := t.cross
  let lengthSquared := n.normSquared
  if Scalar.minNormal < lengthSquared then some (n / Scalar.sqrt lengthSquared) else none

@[inline] def area (t : Triangle α) : α :=
  Scalar.half * t.cross.norm

def centroid (t : Triangle α) : Point α :=
  (t.a + t.b + t.c) / (Scalar.ofNat 3 : α)

/-- Volume of the tetrahedron over the triangle with its apex at the origin, positive when the
front faces away from the origin. -/
@[inline] def signedVolume (t : Triangle α) : α :=
  t.a.dot (t.b.cross t.c) / Scalar.ofNat 6

end Triangle

end SolidSurface

import SolidSurface.Solid.Basic

/-! # Balls, boxes and cylinders

Each kind of primitive solid is made by a function that checks its measurements. All of them are
closed.
-/

namespace SolidSurface

variable {α : Type} [Scalar α]

def requireRadius (radius : α) : Except (ConstructionError α) Unit :=
  if Scalar.isPositive radius then .ok () else .error (.invalidRadius radius)

def requireFinite (p : Point α) : Except (ConstructionError α) Unit :=
  if p.isFinite then .ok () else .error .unboundedCorner

structure Ball (α : Type) where
  center : Point α
  radius : α

namespace Ball

def make (center : Point α) (radius : α) : Except (ConstructionError α) (Ball α) := do
  requireFinite center
  requireRadius radius
  return ⟨center, radius⟩

def bounds (s : Ball α) : Box α :=
  ⟨s.center - Vec3.repeated s.radius, s.center + Vec3.repeated s.radius⟩

@[specialize] def contains (s : Ball α) (p : Point α) : Bool :=
  decide ((p - s.center).normSquared ≤ s.radius * s.radius)

@[specialize] def solid (s : Ball α) : Solid α :=
  ⟨s.bounds, s.contains⟩

end Ball

structure Cuboid (α : Type) where
  bounds : Box α

namespace Cuboid

/-- The box between two opposite corners. -/
def make (a b : Point α) : Except (ConstructionError α) (Cuboid α) := do
  requireFinite a
  requireFinite b
  return ⟨.spanning a b⟩

@[specialize] def contains (c : Cuboid α) (p : Point α) : Bool :=
  c.bounds.contains p

@[specialize] def solid (c : Cuboid α) : Solid α :=
  ⟨c.bounds, c.contains⟩

end Cuboid

/-- A cylinder around the segment from `bottom` to `top`, with flat caps. -/
structure Cylinder (α : Type) where
  bottom : Point α
  top : Point α
  radius : α
  bounds : Box α

namespace Cylinder

/-- A disc of radius `r` with unit normal `n` reaches `r * √(1 - nᵢ²)` along axis `i`. -/
@[inline] def discExtent (radius n : α) : α :=
  radius * Scalar.sqrt (Scalar.max (1 - n * n) 0)

def make (bottom top : Point α) (radius : α) : Except (ConstructionError α) (Cylinder α) := do
  requireFinite bottom
  requireFinite top
  requireRadius radius
  match (top - bottom).normalize? Scalar.epsilon with
  | none => throw .zeroLengthAxis
  | some axis =>
    let extent := axis.map (discExtent radius)
    return ⟨bottom, top, radius, .spanning (bottom.inf top - extent) (bottom.sup top + extent)⟩

@[specialize] def contains (c : Cylinder α) (p : Point α) : Bool :=
  if c.bounds.contains p then
    let axis := c.top - c.bottom
    let rel := p - c.bottom
    let t := rel.dot axis / axis.normSquared
    Scalar.inUnit t && decide ((rel - axis * t).normSquared ≤ c.radius * c.radius)
  else false

@[specialize] def solid (c : Cylinder α) : Solid α :=
  ⟨c.bounds, c.contains⟩

end Cylinder

end SolidSurface

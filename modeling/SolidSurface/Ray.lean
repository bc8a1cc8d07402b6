import SolidSurface.Triangle

/-! # Rays

A ray is a half-line; positions on it are given in multiples of its direction. It is clipped to a
box one axis at a time and meets a triangle where the plane of the triangle is crossed inside its
sides.
-/

namespace SolidSurface

structure Ray (α : Type) where
  origin : Point α
  direction : Vec3 α
  deriving DecidableEq, Repr

/-- A part of a ray, from one position to another or without end. -/
structure RayInterval (α : Type) where
  start : α
  stop : Extended α

/-- Where a ray meets a triangle: the position on the ray and the weights of corners `b` and `c`. -/
structure TriangleCrossing (α : Type) where
  scale : α
  u : α
  v : α
  deriving DecidableEq, Repr

/-- Where a ray strikes a surface made of triangles. -/
structure RayHit (α : Type) where
  scale : α
  /-- Unit normal of the front of the triangle, whichever side the ray comes from. -/
  normal : Vec3 α
  triangle : Triangle α
  /-- Weights of the corners of the triangle. -/
  barycentric : Vec3 α
  deriving DecidableEq, Repr

namespace Ray

variable {α : Type} [Scalar α]

@[inline] def point (r : Ray α) (t : α) : Point α :=
  r.origin + r.direction * t

/-- Clips a part of a ray to the slab between two coordinates of one axis. A ray along the slab is
kept whole or not at all. -/
@[specialize] def clip (origin direction lower upper : α) (i : RayInterval α) :
    Option (RayInterval α) :=
  if direction == 0 then
    if origin < lower ∨ upper < origin then none else some i
  else
    let inverse := 1 / direction
    let a := (lower - origin) * inverse
    let b := (upper - origin) * inverse
    let start := Scalar.max i.start (if a ≤ b then a else b)
    let stop := i.stop.capAt (if a ≤ b then b else a)
    if stop.lt (.val start) then none else some ⟨start, stop⟩

@[inline] def clipAlong (r : Ray α) (b : Box α) (a : Axis) (i : RayInterval α) :
    Option (RayInterval α) :=
  clip (r.origin.get a) (r.direction.get a) (b.lower.get a) (b.upper.get a) i

/-- The part of a ray inside a box. -/
@[specialize] def intervalIn? (r : Ray α) (b : Box α) : Option (RayInterval α) := do
  let i ← r.clipAlong b .x ⟨0, .infinity⟩
  let i ← r.clipAlong b .y i
  r.clipAlong b .z i

/-- Below this fraction of the lengths involved a ray counts as parallel to a triangle. -/
@[inline] def parallelTolerance : α :=
  Scalar.decimal 1 12

/-- Where a ray meets a triangle, sides included, ahead of its origin. -/
@[specialize] def cross? (r : Ray α) (t : Triangle α) : Option (TriangleCrossing α) :=
  let e₁ := t.b - t.a
  let e₂ := t.c - t.a
  let h := r.direction.cross e₂
  let a := e₁.dot h
  if Scalar.abs a < parallelTolerance * e₁.norm * e₂.norm * r.direction.norm then none
  else
    let f := 1 / a
    let s := r.origin - t.a
    let u := f * s.dot h
    if !Scalar.inUnit u then none
    else
      let q := s.cross e₁
      let v := f * r.direction.dot q
      if v < 0 ∨ 1 < u + v then none
      else
        let scale := f * e₂.dot q
        if 0 < scale then some ⟨scale, u, v⟩ else none

/-- Where a ray strikes a triangle that has a normal. -/
@[specialize] def strike? (r : Ray α) (t : Triangle α) : Option (RayHit α) := do
  let c ← r.cross? t
  let n ← t.normal?
  return ⟨c.scale, n, t, ⟨1 - c.u - c.v, c.u, c.v⟩⟩

end Ray

end SolidSurface

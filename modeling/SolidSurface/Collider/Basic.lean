import SolidSurface.Collider.TriangleTree
import SolidSurface.Hierarchy.AreaDensity
import SolidSurface.Solid.Basic

/-! # Colliders

A collider is a surface that can be asked where a ray strikes it and whether a ball reaches it: a
single triangle, a mesh in a tree of boxes, or several colliders joined in one box.
-/

namespace SolidSurface

/-- The triangles of a mesh in a tree of boxes. -/
structure TreeCollider (α : Type) where
  root : TriangleTree α
  size : Nat

/-- A surface that answers queries. -/
inductive Collider (α : Type) where
  | triangle (t : Triangle α)
  | tree (m : TreeCollider α)
  | joined (box : Box α) (parts : List (Collider α))

/-- Reasons for which a collider or a distance field cannot be made. -/
inductive DistanceError (α : Type) where
  | emptyMesh
  | emptyBounds
  | invalidTolerance (tolerance : α)
  | noTries
  deriving DecidableEq, Repr

def DistanceError.message : DistanceError Float → String
  | emptyMesh => "mesh is empty"
  | emptyBounds => "collider has empty bounds"
  | invalidTolerance e => "invalid epsilon: " ++ Binary64.text e ++ " (must be positive and finite)"
  | noTries => "invalid configuration: max_iterations must be at least 1"

variable {α : Type} [Scalar α]

namespace TreeCollider

@[specialize] def ofTriangles (ts : List (Triangle α)) :
    Except (DistanceError α) (TreeCollider α) :=
  match Hierarchy.ofAreaDensity? Triangle.bounds ts with
  | none => .error .emptyMesh
  | some h => .ok ⟨.ofHierarchy h, ts.length⟩

@[inline] def bounds (m : TreeCollider α) : Box α :=
  m.root.bounds

def depth (m : TreeCollider α) : Nat :=
  m.root.depth

end TreeCollider

namespace Collider

def bounds : Collider α → Box α
  | triangle t => t.bounds
  | tree m => m.bounds
  | joined box _ => box

/-- Joins colliders in one box. A part that is itself a join with exactly this box gives up its own
parts in its place, so that joining again does not deepen the collider. -/
@[specialize] def join (parts : List (Collider α)) : Collider α :=
  let box := Box.unionAll (parts.map bounds)
  joined box (parts.flatMap fun part =>
    match part with
    | joined inner innerParts => if inner.coincides box then innerParts else [part]
    | _ => [part])

/-- The colliders at the leaves of a tree, joined pair by pair along its branches. -/
@[specialize] def joinTree : Hierarchy (Collider α) → Collider α
  | .leaf c => c
  | .branch l r => join [joinTree l, joinTree r]

/-- As `joinTree`, and a single leaf is joined alone. -/
@[specialize] def ofHierarchy : Hierarchy (Collider α) → Collider α
  | .leaf c => join [c]
  | h => joinTree h

/-- The form of a collider: the parts of a join, and nothing to see in the others. -/
inductive Shape where
  | single
  | parts (shapes : List Shape)

mutual

def shape : Collider α → Shape
  | joined _ parts => .parts (shapes parts)
  | _ => .single

def shapes : List (Collider α) → List Shape
  | [] => []
  | c :: cs => c.shape :: shapes cs

end

/-! ## Rays -/

mutual

/-- Every place where a ray strikes the surface. -/
@[specialize] def rayHits (r : Ray α) : Collider α → List (RayHit α)
  | triangle t => (r.strike? t).toList
  | tree m => m.root.rayHits r
  | joined box parts => if (r.intervalIn? box).isNone then [] else rayHitsAll r parts

@[specialize] def rayHitsAll (r : Ray α) : List (Collider α) → List (RayHit α)
  | [] => []
  | c :: cs => rayHits r c ++ rayHitsAll r cs

end

mutual

/-- The number of places where a ray strikes the surface. -/
@[specialize] def countHits (r : Ray α) : Collider α → Nat
  | triangle t => if (r.strike? t).isSome then 1 else 0
  | tree m => m.root.countHits r
  | joined box parts => if (r.intervalIn? box).isNone then 0 else countHitsAll r parts

@[specialize] def countHitsAll (r : Ray α) : List (Collider α) → Nat
  | [] => 0
  | c :: cs => countHits r c + countHitsAll r cs

end

/-- The hit with the least position, the first of those that share it. -/
@[specialize] def earliest? : List (RayHit α) → Option (RayHit α)
  | [] => none
  | h :: hs => some (hs.foldl (fun best h =>
      if Scalar.totalLE best.scale h.scale then best else h) h)

mutual

/-- The first place where a ray strikes the surface. -/
@[specialize] def firstHit? (r : Ray α) : Collider α → Option (RayHit α)
  | triangle t => r.strike? t
  | tree m => m.root.firstHit? r .infinity
  | joined box parts =>
    if (r.intervalIn? box).isNone then none else earliest? (firstHits r parts)

@[specialize] def firstHits (r : Ray α) : List (Collider α) → List (RayHit α)
  | [] => []
  | c :: cs =>
    match firstHit? r c with
    | some hit => hit :: firstHits r cs
    | none => firstHits r cs

end

/-! ## Balls -/

mutual

/-- Whether a ball reaches the surface. -/
@[specialize] def touchesBall (center : Point α) (radius : α) : Collider α → Bool
  | triangle t => t.touchesBall center radius
  | tree m => m.root.touchesBall center radius
  | joined box parts =>
    decide (box.distanceSquared center ≤ radius * radius) && anyTouchesBall center radius parts

@[specialize] def anyTouchesBall (center : Point α) (radius : α) : List (Collider α) → Bool
  | [] => false
  | c :: cs => touchesBall center radius c || anyTouchesBall center radius cs

end

/-! ## The inside -/

/-- The direction in which crossings are counted. It is askew to the axes and to the diagonals of
lattices, so that rays from lattice points keep clear of the sides of triangles on the lattice. -/
@[inline] def skewDirection : Vec3 α :=
  Vec3.normalize
    ⟨Scalar.decimal 314159265 9, Scalar.decimal 577215665 9, Scalar.decimal 754877666 9⟩

/-- Whether the surface encloses a point, by the even-odd rule; this is meaningful for a closed
surface. -/
@[specialize] def encloses (c : Collider α) (p : Point α) : Bool :=
  c.countHits ⟨p, skewDirection⟩ % 2 == 1

/-- The inside of a closed surface. -/
@[specialize] def solid (c : Collider α) : Solid α :=
  ⟨c.bounds, fun p => c.bounds.contains p && c.encloses p⟩

end Collider

end SolidSurface

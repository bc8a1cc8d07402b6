import SolidSurface.Collider.Basic

/-! # Signed distances

The distance of a point from a surface counts as positive inside it and negative outside. For a mesh
it is found exactly; for any other collider it is the radius of the least ball that reaches the
surface, found by bisection.
-/

namespace SolidSurface

variable {α : Type} [Scalar α]

@[inline] def signed (inside : Bool) (distance : α) : α :=
  if inside then distance else -distance

namespace TreeCollider

/-- The nearest point of the surface and the signed distance to it. -/
@[specialize] def pointDistance (m : TreeCollider α) (p : Point α) : Point α × α :=
  let nearest := m.root.nearest p ⟨p, .infinity⟩
  let distance := Scalar.sqrt nearest.distanceSquared.toScalar
  (nearest.point, signed ((Collider.tree m).encloses p) distance)

@[inline] def signedDistance (m : TreeCollider α) (p : Point α) : α :=
  (m.pointDistance p).2

end TreeCollider

structure BallSearchSettings (α : Type) where
  /-- Width of the bracket around the distance at which the search ends. -/
  tolerance : α
  /-- Balls tried at most. -/
  maxTries : Nat
  deriving DecidableEq, Repr

namespace BallSearchSettings

def standard : BallSearchSettings α :=
  ⟨Scalar.decimal 1 6, 128⟩

def withTolerance (tolerance : α) : BallSearchSettings α :=
  { (standard : BallSearchSettings α) with tolerance := tolerance }

def coarse : BallSearchSettings α :=
  ⟨Scalar.decimal 1 3, 64⟩

def check (c : BallSearchSettings α) : Except (DistanceError α) Unit :=
  if !Scalar.isPositive c.tolerance then .error (.invalidTolerance c.tolerance)
  else if c.maxTries == 0 then .error .noTries
  else .ok ()

end BallSearchSettings

/-- A collider whose distances are searched for with balls. -/
structure BallSearch (α : Type) where
  collider : Collider α
  settings : BallSearchSettings α

namespace BallSearch

def make (c : Collider α) (settings : BallSearchSettings α) :
    Except (DistanceError α) (BallSearch α) := do
  settings.check
  if c.bounds.isEmpty then
    throw .emptyBounds
  return ⟨c, settings⟩

/-- Halves the bracket between two radii until it is narrow enough or no tries are left, and returns
its middle. The ball of the lower radius misses the surface and that of the upper one reaches it. -/
@[specialize] def narrow (touches : α → Bool) (tolerance lower upper : α) : Nat → α
  | 0 => Scalar.half * (lower + upper)
  | n + 1 =>
    if upper - lower ≤ tolerance then Scalar.half * (lower + upper)
    else
      let mid := Scalar.half * (lower + upper)
      if touches mid then narrow touches tolerance lower mid n
      else narrow touches tolerance mid upper n

/-- The distance to the surface. No ball that misses the box of the collider reaches the surface,
and one that reaches its farthest corner goes around the whole surface. -/
@[specialize] def distance (s : BallSearch α) (p : Point α) : α :=
  let box := s.collider.bounds
  let lower := Scalar.sqrt (box.distanceSquared p)
  let upper := (box.corners.map fun c => (c - p).norm).foldl Scalar.max lower
  narrow (s.collider.touchesBall p) s.settings.tolerance lower upper s.settings.maxTries

@[specialize] def signedDistance (s : BallSearch α) (p : Point α) : α :=
  signed (s.collider.encloses p) (s.distance p)

end BallSearch

end SolidSurface

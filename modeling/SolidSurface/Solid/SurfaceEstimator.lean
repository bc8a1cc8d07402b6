import SolidSurface.Solid.Basic

/-! # Surface points and normals from containment alone

A point on the surface is found by halving a segment with one end inside and one outside. A normal
is found by asking for containment in many directions around a surface point.
-/

namespace SolidSurface

variable {α : Type} [Scalar α]

/-- The midpoint of the segment left over after `n` halvings, each of which keeps the half whose
ends answer differently. -/
@[specialize] def bisect (s : Solid α) (inside outside : Point α) : Nat → Point α
  | 0 => inside.midpoint outside
  | n + 1 =>
    let mid := inside.midpoint outside
    if s.contains mid then bisect s mid outside n else bisect s inside mid n

theorem bisect_zero (s : Solid α) (a b : Point α) : bisect s a b 0 = a.midpoint b := rfl

theorem bisect_succ (s : Solid α) (a b : Point α) (n : Nat) :
    bisect s a b (n + 1) =
      if s.contains (a.midpoint b) then bisect s (a.midpoint b) b n
      else bisect s a (a.midpoint b) n := rfl

/-- Settings of a surface estimator. -/
structure EstimatorSettings (α : Type) where
  /-- Halvings spent on a surface point. -/
  halvings : Nat
  /-- Directions probed for a normal. -/
  probeCount : Nat
  /-- Distance at which they are probed. -/
  probeRadius : α
  deriving DecidableEq, Repr

namespace EstimatorSettings

def standard : EstimatorSettings α :=
  ⟨32, 64, Scalar.decimal 1 4⟩

def coarse : EstimatorSettings α :=
  ⟨16, 32, Scalar.decimal 1 3⟩

def fine : EstimatorSettings α :=
  ⟨48, 256, Scalar.decimal 1 5⟩

def check (c : EstimatorSettings α) : Except (ConstructionError α) Unit :=
  if c.probeCount < 4 then .error (.tooFewProbes c.probeCount)
  else if !Scalar.isPositive c.probeRadius then .error (.invalidProbeRadius c.probeRadius)
  else .ok ()

end EstimatorSettings

/-- Direction `i` of `n` on a spiral that covers the unit sphere evenly. Heights fall in equal steps
and the azimuth advances by the golden angle. -/
@[inline] def spiralDirection (n i : Nat) : Vec3 α :=
  let goldenAngle := Scalar.pi * (Scalar.ofNat 3 - Scalar.sqrt (Scalar.ofNat 5))
  let y := 1 - Scalar.ofNat 2 * (Scalar.ofNat i + Scalar.half) / Scalar.ofNat n
  let r := Scalar.sqrt (Scalar.max (1 - y * y) 0)
  let θ := goldenAngle * Scalar.ofNat i
  ⟨r * Scalar.cos θ, y, r * Scalar.sin θ⟩

@[specialize] def spiralDirections (n : Nat) : List (Vec3 α) :=
  (List.range n).map (spiralDirection n)

structure SurfaceEstimator (α : Type) where
  solid : Solid α
  halvings : Nat
  probeRadius : α
  directions : List (Vec3 α)

namespace SurfaceEstimator

@[specialize] def make (s : Solid α) (c : EstimatorSettings α) :
    Except (ConstructionError α) (SurfaceEstimator α) := do
  c.check
  return ⟨s, c.halvings, c.probeRadius, spiralDirections c.probeCount⟩

/-- A point of the surface between a point inside and a point outside. -/
@[specialize] def surfacePoint (e : SurfaceEstimator α) (inside outside : Point α) : Point α :=
  bisect e.solid inside outside e.halvings

/-- Probes of a normal so far: how many lie inside, and the sum of the outward directions, where a
direction whose probe lies inside counts backwards. -/
structure Probes (α : Type) where
  inside : Nat
  sum : Vec3 α

@[specialize] def probe (e : SurfaceEstimator α) (p : Point α) (found : Probes α) (d : Vec3 α) :
    Probes α :=
  if e.solid.contains (p + d * e.probeRadius) then ⟨found.inside + 1, found.sum - d⟩
  else ⟨found.inside, found.sum + d⟩

/-- Outward unit normal near a surface point. Where all probes agree, or cancel, there is nothing to
go by and the answer is the x axis. -/
@[specialize] def normal (e : SurfaceEstimator α) (p : Point α) : Vec3 α :=
  let found := e.directions.foldl (e.probe p) ⟨0, 0⟩
  if found.inside == 0 || found.inside == e.directions.length then Vec3.unitX
  else (found.sum.normalize? Scalar.epsilon).getD Vec3.unitX

/-- Surface point and normal on a segment of which exactly one end is inside. -/
@[specialize] def pointAndNormal (e : SurfaceEstimator α) (a b : Point α) : Point α × Vec3 α :=
  let p := if e.solid.contains a then e.surfacePoint a b else e.surfacePoint b a
  (p, e.normal p)

end SurfaceEstimator

end SolidSurface

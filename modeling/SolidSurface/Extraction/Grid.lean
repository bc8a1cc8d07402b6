import SolidSurface.Extraction.Failure
import SolidSurface.Extraction.Lattice

/-! # Sampling grids

A grid is a lattice of sample points that starts one cell below the bounds of a solid and ends at
least one cell above them, so that every sample on its border lies outside the bounds. Half-cell
coordinates are twice as fine: even ones are samples, odd ones the middles between two samples.
-/

namespace SolidSurface

structure Grid (α : Type) where
  /-- Number of samples along each axis. -/
  dimensions : Vec3 Nat
  origin : Point α
  cellSize : α

namespace Grid

variable {α : Type} [Scalar α]

/-- Number of samples along an edge of the bounds: those that cover it and three more. -/
def sampleCount (cellSize extent : α) : Nat :=
  Scalar.wrapIndex α (Scalar.toNat (Scalar.ceil (extent / cellSize)) + 3)

def ofBounds (bounds : Box α) (cellSize : α) : Except (ExtractionError α) (Grid α) :=
  if !Scalar.isPositive cellSize then .error (.invalidSpacing cellSize)
  else if !bounds.isValid then .error (.invalidBounds bounds)
  else .ok ⟨bounds.size.map (sampleCount cellSize), bounds.lower - Vec3.repeated cellSize, cellSize⟩

@[specialize] def position (g : Grid α) (p : LatticePoint) : Point α :=
  ⟨g.origin.x + Scalar.ofNat p.x * g.cellSize,
   g.origin.y + Scalar.ofNat p.y * g.cellSize,
   g.origin.z + Scalar.ofNat p.z * g.cellSize⟩

@[specialize] def halfCellPosition (g : Grid α) (h : LatticePoint) : Point α :=
  let half := g.cellSize * Scalar.half
  ⟨g.origin.x + Scalar.ofNat h.x * half,
   g.origin.y + Scalar.ofNat h.y * half,
   g.origin.z + Scalar.ofNat h.z * half⟩

/-- The last half-cell coordinate along an axis with `n` samples. -/
@[inline] def halfLimit (α : Type) [Scalar α] (n : Nat) : Nat :=
  Scalar.wrapIndex α (2 * (n - 1))

/-- Nearest half-cell coordinate at distance `d` from the origin, in units of half a cell. -/
@[specialize] def halfCoordinate? (n : Nat) (d : α) : Option Nat :=
  let h := Scalar.round d
  if 0 ≤ h ∧ h ≤ Scalar.ofNat (halfLimit α n) then some (Scalar.toNat h) else none

/-- Nearest half-cell coordinates of a point, unless it is off the grid. -/
@[specialize] def halfCoordinates? (g : Grid α) (p : Point α) : Option LatticePoint := do
  let rel := (p - g.origin) / (g.cellSize * Scalar.half : α)
  let x ← halfCoordinate? g.dimensions.x rel.x
  let y ← halfCoordinate? g.dimensions.y rel.y
  let z ← halfCoordinate? g.dimensions.z rel.z
  return ⟨x, y, z⟩

end Grid

/-! ## Samples of one layer -/

/-- The answers at the samples of layer `z`, row by row. -/
@[specialize] def sampleLayer (n : Vec3 Nat) (inside : LatticePoint → Bool) (z : Nat) :
    Array Bool :=
  Array.ofFn fun (i : Fin (n.x * n.y)) => inside ⟨i % n.x, i / n.x, z⟩

/-- Whether a sample of layer `z` is inside and on the border. -/
def layerLeaks (n : Vec3 Nat) (z : Nat) (samples : Array Bool) : Bool :=
  samples.zipIdx.any fun (inside, i) => inside && LatticePoint.isBorder n ⟨i % n.x, i / n.x, z⟩

end SolidSurface

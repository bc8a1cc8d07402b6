import SolidSurface.Solid.Basic

/-! # Voxel solids

A block of equal cubic cells, each filled or not. A point on the upper boundary of the block belongs
to the last cell.
-/

namespace SolidSurface

structure Voxels (α : Type) where
  origin : Point α
  width : Nat
  height : Nat
  depth : Nat
  cellSize : α
  /-- Filled cells, `x` running fastest and `z` slowest. -/
  cells : Array Bool

namespace Voxels

variable {α : Type} [Scalar α]

def bounds (v : Voxels α) : Box α :=
  ⟨v.origin,
   ⟨v.origin.x + Scalar.ofNat v.width * v.cellSize,
    v.origin.y + Scalar.ofNat v.height * v.cellSize,
    v.origin.z + Scalar.ofNat v.depth * v.cellSize⟩⟩

/-- Number of the cell at distance `d` from the start of a row of `n` cells. -/
@[inline] def cellAlong (v : Voxels α) (d : α) (n : Nat) : Nat :=
  min (Scalar.toNat (Scalar.floor (d / v.cellSize))) (n - 1)

@[specialize] def contains (v : Voxels α) (p : Point α) : Bool :=
  v.bounds.contains p &&
    let rel := p - v.origin
    let x := v.cellAlong rel.x v.width
    let y := v.cellAlong rel.y v.height
    let z := v.cellAlong rel.z v.depth
    v.cells.getD (x + v.width * (y + v.height * z)) false

@[specialize] def solid (v : Voxels α) : Solid α :=
  ⟨v.bounds, v.contains⟩

end Voxels

end SolidSurface

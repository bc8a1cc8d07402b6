import SolidSurface.Extraction.Grid
import SolidSurface.Mesh.Indexed
import SolidSurface.Solid.SurfaceEstimator

/-! # Moving vertices onto the surface

A vertex in the middle of a sample edge is moved along that edge to where the solid changes from
inside to outside. All other vertices stay where they are.
-/

namespace SolidSurface

open Std (HashMap)

variable {α κ : Type} [Scalar α] [BEq κ] [Hashable κ] [Keyed α κ]

/-- The axis of the sample edge that half-cell coordinates are the middle of, if they are. -/
def LatticePoint.edgeAxis? (h : LatticePoint) : Option Axis :=
  match Axis.all.filter fun a => h.get a % 2 == 1 with
  | [a] => some a
  | _ => none

/-- The neighbours of half-cell coordinates along an axis, one step down and one step up. -/
def LatticePoint.neighbours (h : LatticePoint) : Axis → LatticePoint × LatticePoint
  | .x => ({ h with x := h.x - 1 }, { h with x := h.x + 1 })
  | .y => ({ h with y := h.y - 1 }, { h with y := h.y + 1 })
  | .z => ({ h with z := h.z - 1 }, { h with z := h.z + 1 })

/-- Where a vertex moves to, unless it stays. -/
@[specialize] def snappedVertex? (s : Solid α) (g : Grid α) (iterations : Nat) (v : Point α) :
    Option (Point α) := do
  let h ← g.halfCoordinates? v
  let axis ← h.edgeAxis?
  let (low, high) := h.neighbours axis
  let a := g.halfCellPosition low
  let b := g.halfCellPosition high
  match s.contains a, s.contains b with
  | true, false => some (bisect s a b iterations)
  | false, true => some (bisect s b a iterations)
  | _, _ => none

/-- Moves every vertex of a mesh that has somewhere to go. Triangles keep their handles. -/
@[specialize] def snapToSurface (m : Mesh α κ) (s : Solid α) (g : Grid α) (iterations : Nat) :
    Mesh α κ :=
  let moved : HashMap (PointKey κ) (Point α) := m.vertices.foldl (fun moved v =>
    match snappedVertex? s g iterations v with
    | some target => moved.insert (PointKey.ofPoint v) target
    | none => moved) ∅
  m.mapPoints fun p => moved.getD (PointKey.ofPoint p) p

end SolidSurface

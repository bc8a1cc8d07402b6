import SolidSurface.Mesh.Basic
import SolidSurface.Proofs.DirectedPairs

/-! # Winding of a mesh

Every triangle runs once around itself. A mesh is closed and coherently wound when the directed
sides of its triangles, between vertex keys, are balanced.
-/

namespace SolidSurface

open Std (HashMap)

variable {α κ : Type}

instance [BEq κ] [LawfulBEq κ] : LawfulBEq (PointKey κ) where
  rfl {k} := by
    simp [BEq.beq, instBEqPointKey.beq]
  eq_of_beq {k l} h := by
    cases k
    cases l
    simpa [BEq.beq, instBEqPointKey.beq] using h

namespace Triangle

variable {β γ : Type}

theorem sides_map (f : Point β → Point γ) (t : Triangle β) :
    (t.map f).sides = t.sides.map (Prod.map f f) := rfl

/-- All sides of a list of triangles. -/
def allSides (ts : List (Triangle β)) : List (Point β × Point β) :=
  ts.flatMap sides

theorem allSides_map (f : Point β → Point γ) (ts : List (Triangle β)) :
    allSides (ts.map (map f)) = (allSides ts).map (Prod.map f f) := by
  simp only [allSides, List.flatMap_map, sides_map, List.map_flatMap]

end Triangle

namespace Mesh

variable [BEq κ] [Hashable κ]

@[simp] theorem triangles_mapPoints (m : Mesh α κ) (f : Point α → Point α) :
    (m.mapPoints f).triangles = m.triangles.map (Triangle.map f) := by
  simp only [triangles, mapPoints, Array.toList_map, List.filterMap_map, List.map_filterMap]
  rfl

variable [Keyed α κ]

/-- The sides of the live triangles, each from the key of a corner to the key of the next. -/
def directedSides (m : Mesh α κ) : List (PointKey κ × PointKey κ) :=
  (Triangle.allSides m.triangles).map (Prod.map PointKey.ofPoint PointKey.ofPoint)

/-- The number of times that a triangle runs from `a` to `b` along a side. -/
def sideCount (m : Mesh α κ) (a b : PointKey κ) : Nat :=
  m.directedSides.count (a, b)

/-- Points that move as their keys say take the sides along. -/
theorem directedSides_mapPoints (m : Mesh α κ) {f : Point α → Point α}
    {g : PointKey κ → PointKey κ} (h : ∀ p, PointKey.ofPoint (f p) = g (PointKey.ofPoint p)) :
    (m.mapPoints f).directedSides = m.directedSides.map (Prod.map g g) := by
  rw [directedSides, triangles_mapPoints, Triangle.allSides_map, directedSides, List.map_map,
    List.map_map]
  apply List.map_congr_left
  rintro ⟨p, q⟩ -
  simp [h]

theorem sideCount_eq_of_balanced [LawfulBEq κ] {m : Mesh α κ} (h : Balanced m.directedSides)
    (a b : PointKey κ) : m.sideCount a b = m.sideCount b a :=
  h.count_eq a b

end Mesh

end SolidSurface

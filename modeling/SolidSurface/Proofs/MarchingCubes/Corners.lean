import SolidSurface.Proofs.Scalar.Fraction
import SolidSurface.Proofs.CubeCase.PatchCorners
import SolidSurface.Proofs.Lattice.Crossing
import SolidSurface.Proofs.MarchingCubes.Sampling
import SolidSurface.Proofs.Mesh.Vertices

/-! # Where marching cubes has its vertices

In half-cell coordinates the corners of the triangles of one cube are the middles of its crossed
edges, so the surface of a lattice has a vertex in the middle of every crossed edge and no other,
and all four cubes at the edge have it.
-/

namespace SolidSurface

open CubeCase DualContour

namespace MarchingCubes

variable {n : Vec3 Nat} {inside : LatticePoint → Bool} {a : Axis} {low cube h : LatticePoint}

/-! ## Middles of edges -/

theorem get_middle_stepForward (low : LatticePoint) (a b : Axis) :
    (middle low (stepForward low a)).get b = 2 * low.get b + if b = a then 1 else 0 := by
  rw [middle, Vec3.get_zipWith]
  split_ifs with hba
  · rw [hba, LatticePoint.get_stepForward_self]
    omega
  · rw [LatticePoint.get_stepForward_of_ne low hba]
    omega

theorem edgeMiddle_eq_middle (cube : LatticePoint) {e : Nat} (he : e < 12) :
    edgeMiddle cube e = middle (cubeCorner cube (edgeEnds e).1)
      (stepForward (cubeCorner cube (edgeEnds e).1) (edgeAxis e)) := by
  rw [stepForward_cubeCorner cube e he]
  rfl

theorem crosses_cubeMask (inside : LatticePoint → Bool) (cube : LatticePoint) {e : Nat}
    (he : e < 12) : crosses (cubeMask inside cube) e = true ↔
      inside (cubeCorner cube (edgeEnds e).1) ≠
        inside (stepForward (cubeCorner cube (edgeEnds e).1) (edgeAxis e)) := by
  obtain ⟨hfirst, hsecond⟩ := edgeEnds_lt e he
  rw [crosses, testBit_cubeMask inside cube hfirst, testBit_cubeMask inside cube hsecond,
    stepForward_cubeCorner cube e he, bne_iff_ne]

/-! ## One cube -/

theorem allCorners_cubeSurface (inside : LatticePoint → Bool) (cube : LatticePoint) :
    Triangle.allCorners (cubeSurface inside cube) =
      (PatchTriangle.allCorners (patch (cubeMask inside cube))).map (edgeMiddle cube) := by
  rw [cubeSurface, get_standard (cubeMask_lt inside cube), Triangle.allCorners, List.flatMap_map,
    PatchTriangle.allCorners, List.map_flatMap]
  rfl

/-- The corners of the triangles of a cube are the middles of its crossed edges. -/
theorem mem_allCorners_cubeSurface_iff : h ∈ Triangle.allCorners (cubeSurface inside cube) ↔
    ∃ a low, (a, low) ∈ cubeEdges cube ∧ inside low ≠ inside (stepForward low a) ∧
      middle low (stepForward low a) = h := by
  simp only [allCorners_cubeSurface, List.mem_map, mem_allCorners_patch_iff (cubeMask_lt _ _)]
  constructor
  · rintro ⟨e, ⟨he, hcross⟩, rfl⟩
    exact ⟨_, _, mem_cubeEdges_iff_exists.mpr ⟨e, he, rfl, rfl⟩,
      (crosses_cubeMask inside cube he).mp hcross, (edgeMiddle_eq_middle cube he).symm⟩
  · rintro ⟨a, low, hmem, hdiffer, rfl⟩
    obtain ⟨e, he, rfl, rfl⟩ := mem_cubeEdges_iff_exists.mp hmem
    exact ⟨e, ⟨he, (crosses_cubeMask inside cube he).mpr hdiffer⟩, edgeMiddle_eq_middle cube he⟩

/-! ## The whole lattice -/

theorem mem_allCorners_latticeSurface : h ∈ Triangle.allCorners (latticeSurface n inside) ↔
    ∃ cube : LatticePoint, cube.Below (n.map (· - 1)) ∧
      h ∈ Triangle.allCorners (cubeSurface inside cube) := by
  simp only [Triangle.allCorners, latticeSurface, List.mem_flatMap, LatticePoint.mem_flatMapBelow]
  constructor
  · rintro ⟨t, ⟨cube, hcube, ht⟩, hh⟩
    exact ⟨cube, hcube, t, ht, hh⟩
  · rintro ⟨cube, hcube, t, ht, hh⟩
    exact ⟨t, ⟨cube, hcube, ht⟩, hh⟩

section Clear

variable (hborder : ∀ p : LatticePoint, p.Below n → p.isBorder n = true → inside p = false)

include hborder

theorem CrossedEdge.middle_mem_allCorners_cubeSurface (hcrossed : CrossedEdge n inside a low)
    (hmem : (a, low) ∈ cubeEdges cube) : cube.Below (n.map (· - 1)) ∧
      middle low (stepForward low a) ∈ Triangle.allCorners (cubeSurface inside cube) :=
  ⟨hcrossed.cube_below hborder hmem,
    mem_allCorners_cubeSurface_iff.mpr ⟨a, low, hmem, hcrossed.differ, rfl⟩⟩

/-- There is a vertex in the middle of every crossed edge and nowhere else. -/
theorem mem_allCorners_latticeSurface_iff :
    h ∈ Triangle.allCorners (latticeSurface n inside) ↔
      ∃ a low, CrossedEdge n inside a low ∧ middle low (stepForward low a) = h := by
  rw [mem_allCorners_latticeSurface]
  constructor
  · rintro ⟨cube, hcube, hcorner⟩
    obtain ⟨a, low, hmem, hdiffer, hmiddle⟩ := mem_allCorners_cubeSurface_iff.mp hcorner
    exact ⟨a, low, ⟨stepForward_below_of_mem_cubeEdges hcube hmem, hdiffer⟩, hmiddle⟩
  · rintro ⟨a, low, hcrossed, rfl⟩
    obtain ⟨cube, _, _, _, -, -, hmem⟩ := hcrossed.exists_cubesAround_eq hborder
    exact ⟨cube, CrossedEdge.middle_mem_allCorners_cubeSurface hborder hcrossed
      ((hmem cube).mp List.mem_cons_self)⟩

end Clear

end MarchingCubes

/-! ## The surface in space -/

open MarchingCubes

variable {α κ : Type} [Scalar α] [BEq κ] [Hashable κ]

/-- With no sample inside on the border, the half-cell lattice points that the unrefined surface has
its corners at are the middles of the crossed edges of the grid. Each such edge has four cubes
around it, and the triangles of each of them have a corner at that same point. -/
theorem marchingCubes_corners_eq_middles [Keyed α κ] {s : Solid α} {c : MarchingCubesSettings α}
    {g : Grid α} (hsteps : c.refinementSteps = 0)
    (hgrid : Grid.ofBounds s.bounds c.spacing = .ok g)
    (hborder : ∀ p : LatticePoint, p.Below g.dimensions → p.isBorder g.dimensions = true →
      s.contains (g.position p) = false) :
    let inside := fun p => s.contains (g.position p)
    let surface := latticeSurface g.dimensions inside
    (marchingCubes s c : Except _ (Mesh α κ)) =
        g.meshOf (surface.map (Triangle.map g.halfCellPosition)) ∧
      (∀ h, h ∈ Triangle.allCorners surface ↔ ∃ a low,
        CrossedEdge g.dimensions inside a low ∧ middle low (stepForward low a) = h) ∧
      ∀ a low, CrossedEdge g.dimensions inside a low → ∃ c₁ c₂ c₃ c₄,
        cubesAround low a = [some c₁, some c₂, some c₃, some c₄] ∧ [c₁, c₂, c₃, c₄].Nodup ∧
          ∀ cube, ((a, low) ∈ cubeEdges cube ↔ cube ∈ [c₁, c₂, c₃, c₄]) ∧
            (cube ∈ [c₁, c₂, c₃, c₄] → cube.Below (g.dimensions.map (· - 1)) ∧
              middle low (stepForward low a) ∈ Triangle.allCorners (cubeSurface inside cube)) := by
  refine ⟨marchingCubes_eq_meshOf hsteps hgrid hborder,
    fun h => mem_allCorners_latticeSurface_iff hborder, fun a low hcrossed => ?_⟩
  obtain ⟨c₁, c₂, c₃, c₄, haround, hnodup, hmem⟩ := hcrossed.exists_cubesAround_eq hborder
  refine ⟨c₁, c₂, c₃, c₄, haround, hnodup, fun cube => ⟨(hmem cube).symm, fun hcube => ?_⟩⟩
  exact CrossedEdge.middle_mem_allCorners_cubeSurface hborder hcrossed ((hmem cube).mp hcube)

/-- The edge along x from the first of two opposite corners is crossed. -/
theorem marchingCubes_corners_eq_middles_cornerPair :
    let surface := latticeSurface ⟨4, 4, 3⟩ fun p =>
      cornerPair.contains ((⟨⟨4, 4, 3⟩, ⟨-1, -1, -1⟩, 1⟩ : Grid Fraction).position p)
    (⟨3, 2, 2⟩ : LatticePoint) ∈ Triangle.allCorners surface ∧
      (⟨2, 2, 2⟩ : LatticePoint) ∉ Triangle.allCorners surface := by
  have hdiffer : cornerPair.contains (cornerPairGrid.position ⟨1, 1, 1⟩) ≠
      cornerPair.contains (cornerPairGrid.position ⟨2, 1, 1⟩) := by decide +kernel
  obtain ⟨-, hcorners, -⟩ := marchingCubes_corners_eq_middles (κ := Fraction) (s := cornerPair)
    (c := ⟨1, 0, 0⟩) rfl ofBounds_cornerPair fun _ => contains_cornerPair_of_isBorder
  refine ⟨(hcorners _).mpr ⟨.x, ⟨1, 1, 1⟩, ⟨by decide, hdiffer⟩, rfl⟩, fun h => ?_⟩
  obtain ⟨a, low, -, hmiddle⟩ := (hcorners _).mp h
  have hodd := congrArg (Vec3.get · a) hmiddle
  simp only [get_middle_stepForward, if_pos] at hodd
  cases a <;> simp only [Vec3.get] at hodd <;> omega

end SolidSurface

import SolidSurface.Proofs.Scalar.Fraction
import SolidSurface.Proofs.Lattice.Listing
import SolidSurface.Proofs.MarchingCubes.Winding

/-! # What marching cubes makes of the samples

The surface depends on the answers at the samples alone. There is one as long as no sample on the
border is inside, and it has triangles as soon as any sample is: on the way from there to the border
the answer changes, and a cube with both answers at its corners has a patch.
-/

namespace SolidSurface

open CubeCase DualContour

namespace CubeCase

theorem draw_eq_nil_iff : ∀ mask ∈ leastMasks, draw mask = [] ↔ mask = 0 ∨ mask = 255 := by
  decide +kernel

theorem patch_zero : patch 0 = [] := by
  obtain ⟨r, -, -, hpatch⟩ := exists_patch_eq_map_draw (show 0 < 256 by decide)
  have hleast : leastImage 0 = 0 := Nat.le_zero.mp (leastImage_le 0)
  rw [hpatch, hleast, (draw_eq_nil_iff 0 (by decide)).mpr (.inl rfl), List.map_nil]

/-- Where the corners of a cube differ there is a patch. -/
theorem patch_ne_nil {mask : CornerMask} (hmask : mask < 256) (h₀ : mask ≠ 0)
    (h₁ : mask ≠ 255) : patch mask ≠ [] := by
  obtain ⟨r, hr, hturn, hpatch⟩ := exists_patch_eq_map_draw hmask
  rw [hpatch, ne_eq, List.map_eq_nil_iff, draw_eq_nil_iff _ (leastImage_mem_leastMasks mask hmask)]
  rintro (hzero | hfull)
  · rw [hzero, Rotation.onMask_zero] at hturn
    exact h₀ hturn.symm
  · exact h₁ (Nat.le_antisymm (Nat.le_of_lt_succ hmask) (hfull ▸ leastImage_le mask))

end CubeCase

namespace MarchingCubes

variable {n : Vec3 Nat} {inside : LatticePoint → Bool}

/-- Only the samples of the lattice have a part in the surface. -/
theorem latticeSurface_congr {inside' : LatticePoint → Bool}
    (h : ∀ p : LatticePoint, p.Below n → inside p = inside' p) :
    latticeSurface n inside = latticeSurface n inside' := by
  refine LatticePoint.flatMapBelow_congr fun cube hcube => ?_
  have hmask : cubeMask inside cube = cubeMask inside' cube := by
    refine eq_of_testBit_corners (cubeMask_lt inside cube) (cubeMask_lt inside' cube) ?_
    intro c hc
    rw [testBit_cubeMask inside cube hc, testBit_cubeMask inside' cube hc]
    refine h _ ?_
    obtain ⟨hx, hy, hz⟩ := hcube
    simp only [Vec3.map] at hx hy hz
    refine ⟨?_, ?_, ?_⟩ <;> simp only [cubeCorner] <;> omega
  rw [cubeSurface, cubeSurface, hmask]

theorem cubeSurface_ne_nil {cube : LatticePoint} (hin : inside cube = true)
    (hout : inside (stepForward cube .x) = false) : cubeSurface inside cube ≠ [] := by
  have hmask := cubeMask_lt inside cube
  have hbit₀ : (cubeMask inside cube).testBit 0 = true := by
    rw [testBit_cubeMask inside cube (by decide)]
    exact hin
  have hbit₁ : (cubeMask inside cube).testBit 1 = false := by
    rw [testBit_cubeMask inside cube (by decide)]
    exact hout
  rw [cubeSurface, get_standard hmask]
  intro h
  refine patch_ne_nil hmask (fun h₀ => ?_) (fun h₁ => ?_) (List.map_eq_nil_iff.mp h)
  · rw [h₀] at hbit₀
    exact absurd hbit₀ (by decide)
  · rw [h₁] at hbit₁
    exact absurd hbit₁ (by decide)

/-- There are no triangles when nothing is inside, and only then. -/
theorem latticeSurface_eq_nil_iff
    (hborder : ∀ p : LatticePoint, p.Below n → p.isBorder n = true → inside p = false) :
    latticeSurface n inside = [] ↔ ∀ p : LatticePoint, p.Below n → inside p = false := by
  constructor
  · intro hnone p hp
    rw [← Bool.not_eq_true]
    intro hin
    obtain ⟨cube, hcube, hin, -, hout⟩ := LatticePoint.exists_crossed hborder .x hp hin
    obtain ⟨t, ht⟩ := List.exists_mem_of_ne_nil _ (cubeSurface_ne_nil hin hout)
    have hroom := fun a => (LatticePoint.get_of_inside hborder hcube hin a).2
    have hmem : t ∈ latticeSurface n inside := LatticePoint.mem_flatMapBelow.mpr
      ⟨cube, ⟨Nat.lt_sub_of_add_lt (hroom .x), Nat.lt_sub_of_add_lt (hroom .y),
        Nat.lt_sub_of_add_lt (hroom .z)⟩, ht⟩
    rw [hnone] at hmem
    cases hmem
  · intro hnone
    rw [latticeSurface_congr hnone, List.eq_nil_iff_forall_not_mem]
    intro t ht
    obtain ⟨cube, -, ht⟩ := LatticePoint.mem_flatMapBelow.mp ht
    have hmask : cubeMask (fun _ => false) cube = 0 := rfl
    rw [cubeSurface, hmask, get_standard (by decide), patch_zero] at ht
    cases ht

end MarchingCubes

/-! ## The surface in space -/

variable {α κ : Type} [Scalar α] [BEq κ] [Hashable κ] {s : Solid α} {g : Grid α}

/-- Spacings that a grid can be laid out with are valid settings. -/
theorem MarchingCubesSettings.check_of_ofBounds {c : MarchingCubesSettings α} {bounds : Box α}
    (hgrid : Grid.ofBounds bounds c.spacing = .ok g) : c.check = .ok () := by
  rw [Grid.ofBounds] at hgrid
  rw [check]
  cases h : Scalar.isPositive c.spacing with
  | true => rfl
  | false =>
      rw [h] at hgrid
      cases hgrid

/-- Marching cubes moves the vertices of the unrefined surface when it is asked to. -/
theorem marchingCubes_eq_map [Keyed α κ] {c : MarchingCubesSettings α}
    (hgrid : Grid.ofBounds s.bounds c.spacing = .ok g) :
    (marchingCubes s c : Except _ (Mesh α κ)) = (midpointSurface s g).map fun m =>
      if 0 < c.refinementSteps then snapToSurface m s g c.refinementSteps else m := by
  rw [marchingCubes, MarchingCubesSettings.check_of_ofBounds hgrid, hgrid]
  rfl

theorem marchingCubes_eq_midpointSurface [Keyed α κ] {c : MarchingCubesSettings α}
    (hsteps : c.refinementSteps = 0) (hgrid : Grid.ofBounds s.bounds c.spacing = .ok g) :
    (marchingCubes s c : Except _ (Mesh α κ)) = midpointSurface s g := by
  rw [marchingCubes_eq_map hgrid, hsteps]
  simp only [Nat.lt_irrefl, if_false]
  cases (midpointSurface s g : Except _ (Mesh α κ)) <;> rfl

/-- Without refinement marching cubes gives the surface of the answers at the samples. -/
theorem marchingCubes_eq_meshOf [Keyed α κ] {c : MarchingCubesSettings α}
    (hsteps : c.refinementSteps = 0) (hgrid : Grid.ofBounds s.bounds c.spacing = .ok g)
    (hborder : ∀ p : LatticePoint, p.Below g.dimensions → p.isBorder g.dimensions = true →
      s.contains (g.position p) = false) :
    (marchingCubes s c : Except _ (Mesh α κ)) = g.meshOf
      ((MarchingCubes.latticeSurface g.dimensions fun p => s.contains (g.position p)).map
        (Triangle.map g.halfCellPosition)) := by
  rw [marchingCubes_eq_midpointSurface hsteps hgrid, midpointSurface_eq_meshOf hborder]

/-- The grid of `cornerPair` with cells of size one. -/
def cornerPairGrid : Grid Fraction :=
  ⟨⟨4, 4, 3⟩, ⟨-1, -1, -1⟩, 1⟩

theorem ofBounds_cornerPair : Grid.ofBounds cornerPair.bounds 1 = .ok cornerPairGrid := by
  with_unfolding_all rfl

theorem contains_cornerPair_of_isBorder {p : LatticePoint} (hp : p.Below cornerPairGrid.dimensions)
    (hborder : p.isBorder cornerPairGrid.dimensions = true) :
    cornerPair.contains (cornerPairGrid.position p) = false := by
  have hall : ∀ p ∈ LatticePoint.allBelow cornerPairGrid.dimensions,
      p.isBorder cornerPairGrid.dimensions = true →
        cornerPair.contains (cornerPairGrid.position p) = false := by decide +kernel
  exact hall p (LatticePoint.mem_allBelow.mpr hp) hborder

end SolidSurface

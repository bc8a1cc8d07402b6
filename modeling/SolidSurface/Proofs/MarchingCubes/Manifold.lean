import SolidSurface.Proofs.Scalar.Fraction
import SolidSurface.Proofs.MarchingCubes.Sampling
import SolidSurface.Proofs.MarchingCubes.SharedSides
import SolidSurface.Proofs.Mesh.SideCounts

/-! # Where marching cubes is manifold

The surface is closed and coherently wound, so it is manifold when no directed side is met twice.
Within one cube none is, and two cubes have one in common only in a pinched face. There the two fans
have the same diagonal, and the segment under it belongs to four triangles.
-/

namespace SolidSurface

open CubeCase DualContour

/-- Lattice coordinates are their own keys. -/
instance : Keyed Nat Nat where
  key i := i
  value i := i

namespace MarchingCubes

variable {n : Vec3 Nat} {inside : LatticePoint → Bool}

/-! ## Directed sides -/

theorem nodup_allSides_cubeSurface (cube : LatticePoint) :
    (Triangle.allSides (cubeSurface inside cube)).Nodup := by
  have hmask := cubeMask_lt inside cube
  rw [allSides_cubeSurface, get_standard hmask]
  refine List.Nodup.map_on ?_ (sides_patch_nodup hmask)
  intro s hs t ht heq
  obtain ⟨hs₁, hs₂, -⟩ := mem_sides_patch hmask hs
  obtain ⟨ht₁, ht₂, -⟩ := mem_sides_patch hmask ht
  rw [Prod.map_apply', Prod.map_apply', Prod.mk.injEq] at heq
  exact Prod.ext (edgeMiddle_injective cube hs₁ ht₁ heq.1) (edgeMiddle_injective cube hs₂ ht₂ heq.2)

theorem ne_of_mem_allSides_cubeSurface {cube : LatticePoint} {s : LatticePoint × LatticePoint}
    (hs : s ∈ Triangle.allSides (cubeSurface inside cube)) : s.1 ≠ s.2 := by
  obtain ⟨t, ht, rfl⟩ := (mem_allSides_cubeSurface inside).mp hs
  obtain ⟨h₁, h₂, hne⟩ := mem_sides_patch (cubeMask_lt inside cube) ht
  exact fun h => hne (edgeMiddle_injective cube h₁ h₂ h)

/-- No directed side is met twice unless a face is pinched. -/
theorem nodup_allSides_latticeSurface_iff :
    (Triangle.allSides (latticeSurface n inside)).Nodup ↔
      ∀ (a : Axis) (cube : LatticePoint), (stepForward cube a).Below (n.map (· - 1)) →
        ¬Pinched inside a cube := by
  rw [allSides_latticeSurface, LatticePoint.nodup_flatMapBelow_iff]
  constructor
  · rintro ⟨-, hdisjoint⟩ a cube hnext hpinched
    obtain ⟨s, hs, hs'⟩ := exists_shared_of_pinched inside hpinched
    refine hdisjoint cube _ hnext.of_stepForward hnext (fun heq => ?_) s hs hs'
    have hget := congrArg (Vec3.get · a) heq
    simp only [LatticePoint.get_stepForward_self] at hget
    omega
  · intro h
    refine ⟨fun cube _ => nodup_allSides_cubeSurface cube, fun p q hp hq hne s hs hs' => ?_⟩
    obtain ⟨a, ha⟩ : ∃ a, p.get a ≠ q.get a := by
      by_contra hall
      exact hne (Vec3.ext_get fun a => not_not.mp fun ha => hall ⟨a, ha⟩)
    rcases Nat.lt_or_gt_of_ne ha with hlt | hlt
    · obtain ⟨rfl, hpinched⟩ := exists_pinched_of_shared inside hlt hs hs'
      exact h a p hq hpinched
    · obtain ⟨rfl, hpinched⟩ := exists_pinched_of_shared inside hlt hs' hs
      exact h a q hp hpinched

/-! ## The mesh on the lattice -/

theorem isManifold_latticeSurface_iff
    (hborder : ∀ p : LatticePoint, p.Below n → p.isBorder n = true → inside p = false)
    {m : Mesh Nat Nat} (hm : m.triangles = latticeSurface n inside) :
    m.isManifold = true ↔ ∀ (a : Axis) (cube : LatticePoint),
      (stepForward cube a).Below (n.map (· - 1)) → ¬Pinched inside a cube := by
  have hsides : m.directedSides = (Triangle.allSides (latticeSurface n inside)).map
      (Prod.map PointKey.ofPoint PointKey.ofPoint) := by
    rw [Mesh.directedSides, hm]
  have hinjective : Function.Injective (PointKey.ofPoint : LatticePoint → PointKey Nat) := by
    rintro ⟨x, y, z⟩ ⟨x', y', z'⟩ h
    rwa [PointKey.ofPoint, PointKey.ofPoint, PointKey.mk.injEq, ← Vec3.mk.injEq] at h
  rw [Mesh.isManifold_iff_nodup_of_balanced, hsides,
    List.nodup_map_iff (hinjective.prodMap hinjective), nodup_allSides_latticeSurface_iff]
  · rw [hsides]
    exact (balanced_latticeSurface inside hborder).map _
  · rw [hsides]
    intro t ht
    obtain ⟨s, hs, rfl⟩ := List.mem_map.mp ht
    rw [allSides_latticeSurface, LatticePoint.mem_flatMapBelow] at hs
    obtain ⟨cube, -, hs⟩ := hs
    exact fun h => ne_of_mem_allSides_cubeSurface hs (hinjective h)

end MarchingCubes

/-! ## The surface in space -/

open MarchingCubes

variable {α κ : Type} [Scalar α] [BEq κ] [Hashable κ]

/-- Without refinement marching cubes is manifold, its vertices told apart on the lattice, unless
two neighbouring cubes have all their corners inside but the least and the greatest corner of the
face between them. -/
theorem marchingCubes_isManifold_iff [Keyed α κ] {s : Solid α} {c : MarchingCubesSettings α}
    {g : Grid α} (hsteps : c.refinementSteps = 0)
    (hgrid : Grid.ofBounds s.bounds c.spacing = .ok g)
    (hborder : ∀ p : LatticePoint, p.Below g.dimensions → p.isBorder g.dimensions = true →
      s.contains (g.position p) = false) :
    let inside := fun p => s.contains (g.position p)
    let surface := latticeSurface g.dimensions inside
    (marchingCubes s c : Except _ (Mesh α κ)) =
        g.meshOf (surface.map (Triangle.map g.halfCellPosition)) ∧
      ∀ m : Mesh Nat Nat, m.triangles = surface → (m.isManifold = true ↔
        ∀ (a : Axis) (cube : LatticePoint), (stepForward cube a).Below (g.dimensions.map (· - 1)) →
          ¬Pinched inside a cube) :=
  ⟨marchingCubes_eq_meshOf hsteps hgrid hborder, fun _ => isManifold_latticeSurface_iff hborder⟩

def twoHolesGrid : Grid Fraction :=
  ⟨⟨4, 4, 5⟩, ⟨-1, -1, -1⟩, 1⟩

/-- The samples of a grid off the border but for two that are diagonal in the middle layer. -/
def twoHoles : Solid Fraction :=
  let block : Box Fraction := ⟨twoHolesGrid.position ⟨1, 1, 1⟩, twoHolesGrid.position ⟨2, 2, 3⟩⟩
  ⟨block, fun p => block.contains p && p != twoHolesGrid.position ⟨1, 1, 2⟩ &&
    p != twoHolesGrid.position ⟨2, 2, 2⟩⟩

theorem marchingCubes_isManifold_iff_twoHoles :
    let surface := latticeSurface ⟨4, 4, 5⟩ fun p => twoHoles.contains (twoHolesGrid.position p)
    (∃ m : Mesh Fraction Fraction, marchingCubes twoHoles ⟨1, 0, 0⟩ = .ok m ∧
        m.triangles = surface.map (Triangle.map twoHolesGrid.halfCellPosition)) ∧
      ∃ m : Mesh Nat Nat, m.triangles = surface ∧ m.isManifold = false := by
  have hborder : ∀ p ∈ LatticePoint.allBelow ⟨4, 4, 5⟩, LatticePoint.isBorder ⟨4, 4, 5⟩ p = true →
      twoHoles.contains (twoHolesGrid.position p) = false := by
    decide +kernel
  have hpinched : Pinched (fun p => twoHoles.contains (twoHolesGrid.position p)) .z ⟨1, 1, 1⟩ := by
    decide +kernel
  obtain ⟨hmesh, hiff⟩ := marchingCubes_isManifold_iff (κ := Fraction) (c := ⟨1, 0, 0⟩) rfl
    (show Grid.ofBounds twoHoles.bounds 1 = .ok twoHolesGrid by with_unfolding_all rfl)
    fun p hp => hborder p (LatticePoint.mem_allBelow.mpr hp)
  have hfew : (latticeSurface ⟨4, 4, 5⟩ fun p =>
      twoHoles.contains (twoHolesGrid.position p)).length < handleCount := by
    decide +kernel
  obtain ⟨m, hm⟩ := Grid.exists_meshOf_eq_ok (κ := Fraction) twoHolesGrid _ (by decide)
    ((List.length_map (Triangle.map twoHolesGrid.halfCellPosition)).trans_lt hfew)
  refine ⟨⟨m, hmesh.trans hm, Grid.triangles_of_meshOf hm⟩,
    .ofList _ (Nat.le_of_lt hfew), Mesh.triangles_ofList _ _, ?_⟩
  rw [← Bool.not_eq_true]
  intro h
  exact (hiff _ (Mesh.triangles_ofList _ _)).mp h .z ⟨1, 1, 1⟩ (by decide) hpinched

end SolidSurface

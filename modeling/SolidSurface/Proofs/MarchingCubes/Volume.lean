import SolidSurface.Proofs.Scalar.Fraction
import SolidSurface.Proofs.CubeCase.Volume
import SolidSurface.Proofs.Grid
import SolidSurface.Proofs.MarchingCubes.Sampling

/-! # The volume that marching cubes encloses

Cube by cube the cones over the triangles are those from the middle of the cube, but for what the
faces weigh, and that cancels between neighbours. So the surface encloses the sum of what is inside
each cube: a full cube counts whole, an empty one nothing, and any other something between.
-/

namespace SolidSurface

open CubeCase DualContour

namespace MarchingCubes

variable (inside : LatticePoint → Bool)

/-! ## One cube -/

/-- Twice the area inside on the face below `p` along an axis. -/
def faceInside : Axis → LatticePoint → ℤ
  | .x, p => insideArea (inside p) (inside (stepForward p .z))
      (inside (stepForward (stepForward p .y) .z)) (inside (stepForward p .y))
  | .y, p => insideArea (inside p) (inside (stepForward p .x))
      (inside (stepForward (stepForward p .x) .z)) (inside (stepForward p .z))
  | .z, p => insideArea (inside p) (inside (stepForward p .y))
      (inside (stepForward (stepForward p .x) .y)) (inside (stepForward p .x))

/-- The cone from the origin over the part of a face that is inside. -/
def faceCone (a : Axis) (p : LatticePoint) : ℤ :=
  2 * p.get a * faceInside inside a p

/-- The faces of a cube, near and far along each axis. -/
theorem faceArea_cubeMask (cube : LatticePoint) :
    faceArea (cubeMask inside cube) (0, 4, 6, 2) = faceInside inside .x cube ∧
    faceArea (cubeMask inside cube) (1, 3, 7, 5) = faceInside inside .x (stepForward cube .x) ∧
    faceArea (cubeMask inside cube) (0, 1, 5, 4) = faceInside inside .y cube ∧
    faceArea (cubeMask inside cube) (2, 6, 7, 3) = faceInside inside .y (stepForward cube .y) ∧
    faceArea (cubeMask inside cube) (0, 2, 3, 1) = faceInside inside .z cube ∧
    faceArea (cubeMask inside cube) (4, 5, 7, 6) = faceInside inside .z (stepForward cube .z) := by
  have hbit := fun c hc => testBit_cubeMask inside cube (c := c) hc
  simp only [faceArea, hbit _ (show 0 < 8 by decide), hbit _ (show 1 < 8 by decide),
    hbit _ (show 2 < 8 by decide), hbit _ (show 3 < 8 by decide), hbit _ (show 4 < 8 by decide),
    hbit _ (show 5 < 8 by decide), hbit _ (show 6 < 8 by decide), hbit _ (show 7 < 8 by decide)]
  -- The far face along each axis is met the other way round by the next cube.
  exact ⟨rfl, insideArea_reverse _ _ _ _, rfl, insideArea_reverse _ _ _ _, rfl,
    insideArea_reverse _ _ _ _⟩

/-- The middle of a cube in half-cell coordinates. -/
def cubeMiddle (cube : LatticePoint) : Vec3 ℤ :=
  ⟨2 * cube.x + 1, 2 * cube.y + 1, 2 * cube.z + 1⟩

theorem edgeMiddle_eq_placed (cube : LatticePoint) (e : Nat) :
    (edgeMiddle cube e).map Nat.cast = Vec3.placed (cubeMiddle cube) 1 (edgeFromMiddle e) := by
  simp only [edgeMiddle, cubeCorner, edgeFromMiddle, cornerFromMiddle, Vec3.placed, cubeMiddle,
    Vec3.zipWith, Vec3.map, Vec3.mk.injEq]
  refine ⟨?_, ?_, ?_⟩ <;> omega

theorem placeTriangle_overRing (cube : LatticePoint) (t : PatchTriangle) :
    (placeTriangle cube t).overRing ℤ = t.fromMiddle.map (Vec3.placed (cubeMiddle cube) 1) := by
  simp only [Triangle.overRing, placeTriangle, Triangle.map, edgeMiddle_eq_placed,
    PatchTriangle.fromMiddle]

/-- The cones over the triangles of one cube are what it has inside, and what its faces weigh. -/
theorem sum_coneVolume_cubeSurface (cube : LatticePoint) :
    ((cubeSurface inside cube).map fun t => (t.overRing ℤ).coneVolume).sum =
      insideVolume (cubeMask inside cube) +
        ((faceCone inside .x cube - faceCone inside .x (stepForward cube .x)) +
          (faceCone inside .y cube - faceCone inside .y (stepForward cube .y)) +
          (faceCone inside .z cube - faceCone inside .z (stepForward cube .z))) := by
  have hmask := cubeMask_lt inside cube
  have hcones : ((cubeSurface inside cube).map fun t => (t.overRing ℤ).coneVolume).sum =
      patchVolume (patch (cubeMask inside cube)) +
        ((cubeMiddle cube).x * (patchVector (patch (cubeMask inside cube))).x +
          (cubeMiddle cube).y * (patchVector (patch (cubeMask inside cube))).y +
          (cubeMiddle cube).z * (patchVector (patch (cubeMask inside cube))).z) := by
    rw [cubeSurface, get_standard hmask, List.map_map]
    simp only [Function.comp_def, placeTriangle_overRing, Triangle.coneVolume_placed, one_pow,
      one_mul, List.sum_map_add, List.sum_map_mul_left, patchVolume, patchVector, vectorSum]
  obtain ⟨hx, hx', hy, hy', hz, hz'⟩ := faceArea_cubeMask inside cube
  rw [hcones, patchVector_patch hmask, insideVolume]
  simp only [faceCone, LatticePoint.get_stepForward_self]
  simp only [faces, List.map_cons, List.map_nil, List.sum_cons, List.sum_nil, hx, hx', hy, hy', hz,
    hz', cubeMiddle, Vec3.get]
  push_cast
  ring

/-! ## The whole lattice -/

theorem insideArea_outside {p q r s : Bool} (hp : p = false) (hq : q = false) (hr : r = false)
    (hs : s = false) : insideArea p q r s = 0 := by
  rw [hp, hq, hr, hs]
  rfl

theorem sum_map_allBelow (n : Vec3 Nat) (f : LatticePoint → ℤ) :
    ((LatticePoint.allBelow n).map f).sum = latticeSum n f := by
  rw [LatticePoint.allBelow, sum_map_flatMapBelow]
  simp only [List.map_cons, List.map_nil, List.sum_cons, List.sum_nil, add_zero]

section Clear

variable {n : Vec3 Nat}
  (hborder : ∀ p : LatticePoint, p.Below n → p.isBorder n = true → inside p = false)

include hborder

/-- The faces at either end of the lattice weigh nothing. -/
theorem faceCone_eq_zero (a : Axis) (p : LatticePoint) (hpos : 0 < (n.map (· - 1)).get a)
    (hother : ∀ b, b ≠ a → p.get b < (n.map (· - 1)).get b)
    (hend : p.get a = 0 ∨ p.get a = (n.map (· - 1)).get a) : faceCone inside a p = 0 := by
  have hout := fun q => LatticePoint.inside_eq_false_of_face hborder hother hpos hend (q := q)
  have harea : faceInside inside a p = 0 := by
    cases a <;> refine insideArea_outside ?_ ?_ ?_ ?_ <;> refine hout _ rfl ?_ <;>
      rintro (_ | _ | _) <;> simp [stepForward, Vec3.get]
  rw [faceCone, harea, mul_zero]

/-- The cones over the whole surface are what the cubes have inside. -/
theorem sum_coneVolume_latticeSurface :
    ((latticeSurface n inside).map fun t => (t.overRing ℤ).coneVolume).sum =
      ((LatticePoint.allBelow (n.map (· - 1))).map fun cube =>
        insideVolume (cubeMask inside cube)).sum := by
  rw [latticeSurface, sum_map_flatMapBelow, latticeSum_congr fun cube _ =>
    sum_coneVolume_cubeSurface inside cube, latticeSum_add,
    latticeSum_flux_eq_zero (faceCone_eq_zero inside hborder), add_zero, sum_map_allBelow]

end Clear

/-! ## Counting cubes -/

/-- Whether all corners of a cube are inside. -/
def allInside (cube : LatticePoint) : Bool :=
  (List.range 8).all fun c => inside (cubeCorner cube c)

/-- Whether some corner of a cube is inside. -/
def anyInside (cube : LatticePoint) : Bool :=
  (List.range 8).any fun c => inside (cubeCorner cube c)

variable {inside} {cube : LatticePoint}

theorem cubeMask_of_allInside (h : allInside inside cube = true) : cubeMask inside cube = 255 := by
  refine eq_of_testBit_corners (cubeMask_lt inside cube) (by decide) fun c hc => ?_
  have hfull : ∀ c < 8, Nat.testBit 255 c = true := by decide
  rw [testBit_cubeMask inside cube hc, hfull c hc]
  exact List.all_eq_true.mp h c (List.mem_range.mpr hc)

theorem cubeMask_ne_zero_iff : cubeMask inside cube ≠ 0 ↔ anyInside inside cube = true := by
  rw [anyInside, List.any_eq_true]
  constructor
  · intro hne
    by_contra hnone
    refine hne (eq_of_testBit_corners (cubeMask_lt inside cube) (by decide) fun c hc => ?_)
    rw [testBit_cubeMask inside cube hc, Nat.zero_testBit, ← Bool.not_eq_true]
    exact fun hin => hnone ⟨c, List.mem_range.mpr hc, hin⟩
  · rintro ⟨c, hc, hin⟩ hzero
    have hbit := testBit_cubeMask inside cube (List.mem_range.mp hc)
    rw [hzero, Nat.zero_testBit, hin] at hbit
    cases hbit

theorem insideVolume_nonneg (inside : LatticePoint → Bool) (cube : LatticePoint) :
    0 ≤ insideVolume (cubeMask inside cube) := by
  by_cases hzero : cubeMask inside cube = 0
  · rw [hzero, insideVolume_zero_full.1]
  · exact (insideVolume_pos (cubeMask_lt inside cube) hzero).le

theorem le_insideVolume (inside : LatticePoint → Bool) (cube : LatticePoint) :
    (if allInside inside cube then 48 else 0) ≤ insideVolume (cubeMask inside cube) := by
  split_ifs with h
  · rw [cubeMask_of_allInside h, insideVolume_zero_full.2]
  · exact insideVolume_nonneg inside cube

theorem insideVolume_le_of_anyInside (inside : LatticePoint → Bool) (cube : LatticePoint) :
    insideVolume (cubeMask inside cube) ≤ if anyInside inside cube then 48 else 0 := by
  split_ifs with h
  · exact insideVolume_le (cubeMask_lt inside cube)
  · rw [not_not.mp (mt cubeMask_ne_zero_iff.mp h), insideVolume_zero_full.1]

theorem sum_map_ite {β : Type} (P : β → Bool) (k : ℤ) (l : List β) :
    (l.map fun b => if P b then k else 0).sum = k * l.countP P := by
  induction l with
  | nil => simp
  | cons b l ih =>
      rw [List.map_cons, List.sum_cons, ih, List.countP_cons]
      split_ifs <;> push_cast <;> ring

/-- Between the cubes with all corners inside and those with any. -/
theorem sum_insideVolume_bounds (inside : LatticePoint → Bool) (cubes : List LatticePoint) :
    48 * (cubes.countP (allInside inside) : ℤ) ≤
        (cubes.map fun cube => insideVolume (cubeMask inside cube)).sum ∧
      (cubes.map fun cube => insideVolume (cubeMask inside cube)).sum ≤
        48 * (cubes.countP (anyInside inside) : ℤ) := by
  rw [← sum_map_ite, ← sum_map_ite]
  exact ⟨List.sum_le_sum fun cube _ => le_insideVolume inside cube,
    List.sum_le_sum fun cube _ => insideVolume_le_of_anyInside inside cube⟩

theorem sum_insideVolume_pos {cubes : List LatticePoint} (hcube : cube ∈ cubes)
    (hin : anyInside inside cube = true) :
    0 < (cubes.map fun cube => insideVolume (cubeMask inside cube)).sum := by
  refine (insideVolume_pos (cubeMask_lt inside cube) (cubeMask_ne_zero_iff.mpr hin)).trans_le ?_
  refine List.single_le_sum (fun v hv => ?_) _ (List.mem_map_of_mem hcube)
  obtain ⟨cube', -, rfl⟩ := List.mem_map.mp hv
  exact insideVolume_nonneg inside cube'

end MarchingCubes

/-! ## The surface in space -/

open MarchingCubes

variable {α κ : Type} [FieldScalar α] [BEq κ] [Hashable κ]

theorem Grid.halfCellPosition_eq_placed (g : Grid α) (h : LatticePoint) :
    g.halfCellPosition h = Vec3.placed g.origin (g.cellSize / 2) (h.map Nat.cast) := by
  refine Vec3.ext_get fun a => ?_
  rw [get_halfCellPosition_eq, Vec3.placed, Vec3.get_zipWith, Vec3.get_map, mul_comm]

/-- The unrefined surface encloses a 48th of a cell for every unit of what its cubes have inside. -/
theorem volume_latticeSurface {n : Vec3 Nat} {inside : LatticePoint → Bool} (g : Grid α)
    (hborder : ∀ p : LatticePoint, p.Below n → p.isBorder n = true → inside p = false)
    {m : Mesh α κ}
    (hm : m.triangles = (latticeSurface n inside).map (Triangle.map g.halfCellPosition)) :
    m.volume = g.cellSize ^ 3 / 48 * (((LatticePoint.allBelow (n.map (· - 1))).map fun cube =>
        insideVolume (cubeMask inside cube)).sum : ℤ) := by
  have hplaced : (Triangle.map g.halfCellPosition : Triangle Nat → Triangle α) =
      fun t => (t.overRing α).map (Vec3.placed g.origin (g.cellSize / 2)) := by
    funext t
    simp only [Triangle.map, Triangle.overRing, g.halfCellPosition_eq_placed]
  rw [Mesh.volume_placed (balanced_latticeSurface inside hborder) (hplaced ▸ hm),
    sum_coneVolume_latticeSurface inside hborder]
  ring

/-- With no sample inside on the border, the volume that the unrefined surface encloses lies between
that of the cells with all corners inside and that of the cells with any, and it is positive as soon
as some sample is inside. -/
theorem marchingCubes_volume_bounds [Keyed α κ] {s : Solid α} {c : MarchingCubesSettings α}
    {g : Grid α} (hsteps : c.refinementSteps = 0)
    (hgrid : Grid.ofBounds s.bounds c.spacing = .ok g)
    (hborder : ∀ p : LatticePoint, p.Below g.dimensions → p.isBorder g.dimensions = true →
      s.contains (g.position p) = false) :
    let inside := fun p => s.contains (g.position p)
    let cubes := LatticePoint.allBelow (g.dimensions.map (· - 1))
    (marchingCubes s c : Except _ (Mesh α κ)) = g.meshOf
        ((latticeSurface g.dimensions inside).map (Triangle.map g.halfCellPosition)) ∧
      ∀ m : Mesh α κ, marchingCubes s c = .ok m →
        c.spacing ^ 3 * cubes.countP (allInside inside) ≤ m.volume ∧
        m.volume ≤ c.spacing ^ 3 * cubes.countP (anyInside inside) ∧
        ((∃ p : LatticePoint, p.Below g.dimensions ∧ inside p = true) → 0 < m.volume) := by
  intro inside cubes
  have hresult := marchingCubes_eq_meshOf (κ := κ) hsteps hgrid hborder
  obtain ⟨hcell, hpos⟩ := Grid.cellSize_pos hgrid
  obtain ⟨hlower, hupper⟩ := sum_insideVolume_bounds inside cubes
  have hunit : 0 < g.cellSize ^ 3 / 48 := div_pos (pow_pos hpos 3) (by norm_num)
  -- Counted in whole cells the bounds are those of the sum over the cubes, 48 to a cell.
  have hwhole : ∀ k : Nat, c.spacing ^ 3 * k = g.cellSize ^ 3 / 48 * ((48 * k : ℤ) : α) := by
    intro k
    rw [hcell]
    push_cast
    ring
  refine ⟨hresult, fun m hm => ?_⟩
  rw [volume_latticeSurface g hborder (Grid.triangles_of_meshOf (hresult.symm.trans hm)), hwhole,
    hwhole]
  refine ⟨mul_le_mul_of_nonneg_left (Int.cast_le.mpr hlower) hunit.le,
    mul_le_mul_of_nonneg_left (Int.cast_le.mpr hupper) hunit.le, ?_⟩
  rintro ⟨p, hp, hin⟩
  have hcube : p ∈ cubes := by
    rw [LatticePoint.mem_allBelow, LatticePoint.below_iff_forall_get]
    intro a
    have hroom := (LatticePoint.get_of_inside hborder hp hin a).2
    rw [Vec3.get_map]
    omega
  have hany : anyInside inside p = true :=
    List.any_eq_true.mpr ⟨0, List.mem_range.mpr (by decide), hin⟩
  exact mul_pos hunit (Int.cast_pos.mpr (sum_insideVolume_pos hcube hany))

/-- A cube of samples. -/
def sampleCube : Solid Fraction :=
  let box : Box Fraction := ⟨⟨0, 0, 0⟩, ⟨1, 1, 1⟩⟩
  ⟨box, box.contains⟩

/-- One cell has all its corners inside, and all 27 have some. -/
theorem marchingCubes_volume_bounds_sampleCube :
    ∃ m : Mesh Fraction Fraction, marchingCubes sampleCube ⟨1, 0, 0⟩ = .ok m ∧
      1 ≤ m.volume ∧ m.volume ≤ ((27 : Nat) : Fraction) ∧ 0 < m.volume := by
  let g : Grid Fraction := ⟨⟨4, 4, 4⟩, ⟨-1, -1, -1⟩, 1⟩
  let inside := fun p => sampleCube.contains (g.position p)
  let cubes := LatticePoint.allBelow (g.dimensions.map (· - 1))
  have hgrid : Grid.ofBounds sampleCube.bounds 1 = .ok g := by with_unfolding_all rfl
  have hsamples : (∀ p ∈ LatticePoint.allBelow g.dimensions, p.isBorder g.dimensions = true →
      inside p = false) ∧ inside ⟨1, 1, 1⟩ = true ∧ cubes.countP (allInside inside) = 1 ∧
      cubes.countP (anyInside inside) = 27 := by
    decide +kernel
  obtain ⟨hborder, hin, hall, hany⟩ := hsamples
  obtain ⟨hresult, hbounds⟩ :=
    marchingCubes_volume_bounds (κ := Fraction) (s := sampleCube) (c := ⟨1, 0, 0⟩) rfl hgrid
      fun p hp => hborder p (LatticePoint.mem_allBelow.mpr hp)
  obtain ⟨m, hm⟩ := Grid.exists_meshOf_eq_ok (κ := Fraction) g
    ((latticeSurface g.dimensions inside).map (Triangle.map g.halfCellPosition)) (by decide)
    (by decide +kernel)
  obtain ⟨hlower, hupper, hpos⟩ := hbounds m (hresult.trans hm)
  replace hm := hresult.trans hm
  refine ⟨m, hm, ?_, ?_, hpos ⟨⟨1, 1, 1⟩, by decide, hin⟩⟩
  · calc (1 : Fraction) = 1 ^ 3 * (cubes.countP (allInside inside) : Nat) := by
          rw [hall, one_pow, Nat.cast_one, mul_one]
      _ ≤ m.volume := hlower
  · calc m.volume ≤ 1 ^ 3 * (cubes.countP (anyInside inside) : Nat) := hupper
      _ = ((27 : Nat) : Fraction) := by rw [hany, one_pow, one_mul]

end SolidSurface

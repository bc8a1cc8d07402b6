import SolidSurface.Proofs.Scalar.Fraction
import SolidSurface.Proofs.CubeCase.PatchBoundary
import SolidSurface.Proofs.Lattice.Sum
import SolidSurface.Proofs.MarchingCubes.Layers
import SolidSurface.Proofs.Mesh.Winding

/-! # Marching cubes closes its surface

Seen from the two cubes at a lattice face the segments on it run in opposite directions, so the
sides of all cubes cancel face by face and only the border of the lattice could be left.
-/

namespace SolidSurface

open CubeCase DualContour

namespace MarchingCubes

/-! ## Faces of the lattice -/

/-- The middle between two neighbouring samples, in half-cell coordinates. -/
def middle (p q : LatticePoint) : LatticePoint :=
  Vec3.zipWith (· + ·) p q

theorem middle_comm (p q : LatticePoint) : middle p q = middle q p := by
  simp only [middle, Vec3.zipWith, Nat.add_comm]

variable (inside : LatticePoint → Bool)

/-- The segments on a face of the lattice, walked in the order of the given corners. -/
def faceRuns (p q r s : LatticePoint) : List (LatticePoint × LatticePoint) :=
  runs (inside p) (inside q) (inside r) (inside s)
    (middle p q) (middle q r) (middle r s) (middle s p)

variable {w : LatticePoint → LatticePoint → ℤ}

theorem pairSum_faceRuns_reverse (hw : Alternating w) (p q r s : LatticePoint) :
    pairSum w (faceRuns inside p s r q) = -pairSum w (faceRuns inside p q r s) := by
  rw [faceRuns, middle_comm p s, middle_comm s r, middle_comm r q, middle_comm q p]
  exact pairSum_runs_reverse hw _ _ _ _ _ _ _ _

/-- What the segments on the face below `p` along an axis weigh, as the cube above it walks them. -/
def faceFlux (w : LatticePoint → LatticePoint → ℤ) : Axis → LatticePoint → ℤ
  | .x, p => pairSum w (faceRuns inside p (stepForward p .z) (stepForward (stepForward p .y) .z)
      (stepForward p .y))
  | .y, p => pairSum w (faceRuns inside p (stepForward p .x) (stepForward (stepForward p .x) .z)
      (stepForward p .z))
  | .z, p => pairSum w (faceRuns inside p (stepForward p .y) (stepForward (stepForward p .x) .y)
      (stepForward p .x))

/-! ## One cube -/

theorem edgeMiddle_of_edgeJoining? (cube : LatticePoint) {a b e : Nat}
    (h : edgeJoining? a b = some e) :
    edgeMiddle cube e = middle (cubeCorner cube a) (cubeCorner cube b) := by
  rcases edgeEnds_of_edgeJoining? h with hends | hends
  · rw [edgeMiddle, hends]
    rfl
  · rw [edgeMiddle, hends, middle_comm]
    rfl

theorem cubeMask_lt (cube : LatticePoint) : cubeMask inside cube < 256 :=
  maskOf_lt _

theorem testBit_cubeMask (cube : LatticePoint) {c : Nat} (hc : c < 8) :
    (cubeMask inside cube).testBit c = inside (cubeCorner cube c) :=
  testBit_maskOf _ hc

/-- The segments on a face of a cube are those on the face of the lattice that it covers. -/
theorem map_faceSegments_cubeMask (cube : LatticePoint) {f : Face} (hf : f ∈ faces) :
    (faceSegments (cubeMask inside cube) f).map (Prod.map (edgeMiddle cube) (edgeMiddle cube)) =
      faceRuns inside (cubeCorner cube f.1) (cubeCorner cube f.2.1) (cubeCorner cube f.2.2.1)
        (cubeCorner cube f.2.2.2) := by
  obtain ⟨p, q, r, s⟩ := f
  obtain ⟨hp, hq, hr, hs⟩ := corners_lt_of_mem_faces _ hf
  obtain ⟨pq, qr, rs, sp, hpq, hqr, hrs, hsp⟩ := exists_edges_of_mem_faces hf
  rw [faceSegments_eq_runs _ hpq hqr hrs hsp, runs_map, testBit_cubeMask inside cube hp,
    testBit_cubeMask inside cube hq, testBit_cubeMask inside cube hr,
    testBit_cubeMask inside cube hs, edgeMiddle_of_edgeJoining? cube hpq,
    edgeMiddle_of_edgeJoining? cube hqr, edgeMiddle_of_edgeJoining? cube hrs,
    edgeMiddle_of_edgeJoining? cube hsp]
  rfl

theorem map_segments_cubeMask (cube : LatticePoint) :
    (segments (cubeMask inside cube)).map (Prod.map (edgeMiddle cube) (edgeMiddle cube)) =
      faces.flatMap fun f => faceRuns inside (cubeCorner cube f.1) (cubeCorner cube f.2.1)
        (cubeCorner cube f.2.2.1) (cubeCorner cube f.2.2.2) := by
  rw [segments, List.map_flatMap]
  exact List.flatMap_congr fun f hf => map_faceSegments_cubeMask inside cube hf

theorem allSides_cubeSurface (cube : LatticePoint) :
    Triangle.allSides (cubeSurface inside cube) =
      ((Table.standard.get (cubeMask inside cube)).flatMap PatchTriangle.sides).map
        (Prod.map (edgeMiddle cube) (edgeMiddle cube)) := by
  rw [cubeSurface, Triangle.allSides, List.flatMap_map, List.map_flatMap]
  rfl

/-- The sides of one cube weigh as much as what enters it less what leaves it. -/
theorem pairSum_cubeSurface (hw : Alternating w) (cube : LatticePoint) :
    pairSum w (Triangle.allSides (cubeSurface inside cube)) =
      (faceFlux inside w .x cube - faceFlux inside w .x (stepForward cube .x)) +
        (faceFlux inside w .y cube - faceFlux inside w .y (stepForward cube .y)) +
        (faceFlux inside w .z cube - faceFlux inside w .z (stepForward cube .z)) := by
  have hmask := cubeMask_lt inside cube
  let corner := cubeCorner cube
  -- The far face along each axis is met the other way round by the next cube.
  have hx : pairSum w (faceRuns inside (corner 1) (corner 3) (corner 7) (corner 5)) =
      -faceFlux inside w .x (stepForward cube .x) := pairSum_faceRuns_reverse inside hw _ _ _ _
  have hy : pairSum w (faceRuns inside (corner 2) (corner 6) (corner 7) (corner 3)) =
      -faceFlux inside w .y (stepForward cube .y) := pairSum_faceRuns_reverse inside hw _ _ _ _
  have hz : pairSum w (faceRuns inside (corner 4) (corner 5) (corner 7) (corner 6)) =
      -faceFlux inside w .z (stepForward cube .z) := pairSum_faceRuns_reverse inside hw _ _ _ _
  rw [allSides_cubeSurface, get_standard hmask, pairSum_map,
    pairSum_sides_patch hmask (hw.comp (edgeMiddle cube)), ← pairSum_map, map_segments_cubeMask]
  simp only [faces, List.flatMap_cons, List.flatMap_nil, List.append_nil, pairSum_append]
  rw [hx, hy, hz]
  change faceFlux inside w .z cube + (_ + (faceFlux inside w .y cube + (_ +
    (faceFlux inside w .x cube + _)))) = _
  ring

/-! ## The whole lattice -/

theorem faceRuns_eq_nil {p q r s : LatticePoint} (hp : inside p = false) (hq : inside q = false)
    (hr : inside r = false) (hs : inside s = false) : faceRuns inside p q r s = [] := by
  rw [faceRuns, hp, hq, hr, hs, runs_outside]

/-- No segment lies on a face at either end of the lattice. -/
theorem faceFlux_eq_zero {n : Vec3 Nat}
    (hborder : ∀ p : LatticePoint, p.Below n → p.isBorder n = true → inside p = false)
    (a : Axis) (p : LatticePoint) (hpos : 0 < (n.map (· - 1)).get a)
    (hother : ∀ b, b ≠ a → p.get b < (n.map (· - 1)).get b)
    (hend : p.get a = 0 ∨ p.get a = (n.map (· - 1)).get a) :
    faceFlux inside w a p = 0 := by
  have hout := fun q => LatticePoint.inside_eq_false_of_face hborder hother hpos hend (q := q)
  cases a with
  | x =>
      rw [faceFlux, faceRuns_eq_nil, pairSum_nil] <;> refine hout _ rfl ?_ <;>
        rintro (_ | _ | _) <;> simp [stepForward, Vec3.get]
  | y =>
      rw [faceFlux, faceRuns_eq_nil, pairSum_nil] <;> refine hout _ rfl ?_ <;>
        rintro (_ | _ | _) <;> simp [stepForward, Vec3.get]
  | z =>
      rw [faceFlux, faceRuns_eq_nil, pairSum_nil] <;> refine hout _ rfl ?_ <;>
        rintro (_ | _ | _) <;> simp [stepForward, Vec3.get]

theorem allSides_latticeSurface (n : Vec3 Nat) :
    Triangle.allSides (latticeSurface n inside) =
      LatticePoint.flatMapBelow (n.map (· - 1)) fun cube =>
        Triangle.allSides (cubeSurface inside cube) := by
  simp only [latticeSurface, LatticePoint.flatMapBelow, Triangle.allSides, List.flatMap_assoc]

/-- The surface of a lattice with nothing inside on its border is closed and coherently wound. -/
theorem balanced_latticeSurface {n : Vec3 Nat}
    (hborder : ∀ p : LatticePoint, p.Below n → p.isBorder n = true → inside p = false) :
    Balanced (Triangle.allSides (latticeSurface n inside)) := by
  intro w hw
  rw [allSides_latticeSurface, pairSum_flatMapBelow]
  simp only [pairSum_cubeSurface inside hw]
  exact latticeSum_flux_eq_zero (faceFlux_eq_zero inside hborder)

end MarchingCubes

/-! ## The surface in space -/

variable {α κ : Type} [Scalar α] [BEq κ] [Hashable κ] [Keyed α κ]

theorem balanced_midpointSurface {s : Solid α} {g : Grid α} {m : Mesh α κ}
    (h : midpointSurface s g = .ok m) : Balanced m.directedSides := by
  obtain ⟨hborder, htriangles⟩ := of_midpointSurface_eq_ok h
  rw [Mesh.directedSides, htriangles, Triangle.allSides_map]
  exact ((MarchingCubes.balanced_latticeSurface _ hborder).map _).map _

/-- Where a vertex is moved to depends on its key alone. -/
theorem exists_directedSides_snapToSurface [LawfulBEq κ] (m : Mesh α κ) (s : Solid α) (g : Grid α)
    (iterations : Nat) : ∃ f : PointKey κ → PointKey κ,
      (snapToSurface m s g iterations).directedSides = m.directedSides.map (Prod.map f f) := by
  simp only [snapToSurface]
  generalize m.vertices.foldl _ _ = moved
  refine ⟨fun k => (moved[k]?.map PointKey.ofPoint).getD k, Mesh.directedSides_mapPoints m ?_⟩
  intro p
  rw [Std.HashMap.getD_eq_getD_getElem?]
  cases moved[PointKey.ofPoint p]? with
  | none => rfl
  | some q => rfl

/-- Marching cubes, with or without snapping, closes its surface and winds it coherently: as many
sides run from one vertex to another as back. -/
theorem marchingCubes_sideCount_comm [LawfulBEq κ] {s : Solid α} {c : MarchingCubesSettings α}
    {m : Mesh α κ} (h : marchingCubes s c = .ok m) (a b : PointKey κ) :
    m.sideCount a b = m.sideCount b a := by
  apply Mesh.sideCount_eq_of_balanced
  simp only [marchingCubes, bind, Except.bind] at h
  split at h
  · cases h
  · split at h
    · cases h
    · rename_i g hg
      split at h
      · cases h
      · rename_i plain hplain
        have hbalanced := balanced_midpointSurface hplain
        cases h
        split
        · obtain ⟨f, hf⟩ := exists_directedSides_snapToSurface plain s g c.refinementSteps
          rw [hf]
          exact hbalanced.map f
        · exact hbalanced

/-- Two opposite corners of a square and nothing else, which leaves ambiguous faces. -/
def cornerPair : Solid Fraction :=
  ⟨⟨⟨0, 0, 0⟩, ⟨1, 1, 0⟩⟩, fun p => decide (p = ⟨0, 0, 0⟩ ∨ p = ⟨1, 1, 0⟩)⟩

theorem marchingCubes_sideCount_comm_cornerPair :
    ∃ m : Mesh Fraction Fraction, marchingCubes cornerPair ⟨1, 3, 0⟩ = .ok m ∧
      ∀ a b, m.sideCount a b = m.sideCount b a := by
  cases h : (marchingCubes cornerPair ⟨1, 3, 0⟩ : Except _ (Mesh Fraction Fraction)) with
  | ok m => exact ⟨m, rfl, marchingCubes_sideCount_comm h⟩
  | error e =>
      have hok : (marchingCubes cornerPair ⟨1, 3, 0⟩ :
          Except _ (Mesh Fraction Fraction)).isOk = true := by decide +kernel
      rw [h] at hok
      cases hok

end SolidSurface

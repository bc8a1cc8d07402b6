import SolidSurface.Proofs.CubeCase.FaceSides
import SolidSurface.Proofs.MarchingCubes.Winding

/-! # Sides that two cubes have in common

Two different cubes have the middles of two edges in common only when they are neighbours, and then
these edges bound the face between them. As both cubes walk that face, in opposite directions, a
directed side can come from both of them only if each has a fan diagonal there. That leaves one
pattern of the twelve corners for each axis.
-/

namespace SolidSurface

open CubeCase DualContour

namespace CubeCase

/-- The number of the corner one step along an axis from corner 0. -/
def cornerAlong : Axis → Nat
  | .x => 1
  | .y => 2
  | .z => 4

/-- The face of a cube that the next one along an axis has in common with it. -/
def farFace : Axis → Face
  | .x => (1, 3, 7, 5)
  | .y => (2, 6, 7, 3)
  | .z => (4, 5, 7, 6)

/-- The face opposite to the far one. -/
def nearFace : Axis → Face
  | .x => (0, 4, 6, 2)
  | .y => (0, 1, 5, 4)
  | .z => (0, 2, 3, 1)

/-- All corners are inside but the least and the greatest one of the far face. -/
def pinchedBelow (a : Axis) : CornerMask :=
  127 - 2 ^ cornerAlong a

/-- All corners are inside but the least and the greatest one of the near face. -/
def pinchedAbove (a : Axis) : CornerMask :=
  254 - 2 ^ (7 - cornerAlong a)

theorem farFace_mem_faces (a : Axis) : farFace a ∈ faces := by
  cases a <;> decide

theorem nearFace_mem_faces (a : Axis) : nearFace a ∈ faces := by
  cases a <;> decide

end CubeCase

namespace MarchingCubes

/-! ## Edges of a cube -/

/-- The middle of an edge of the cube at the origin. -/
def edgeOffset (e : Nat) : LatticePoint :=
  edgeMiddle ⟨0, 0, 0⟩ e

theorem get_edgeMiddle (cube : LatticePoint) (e : Nat) (a : Axis) :
    (edgeMiddle cube e).get a = 2 * cube.get a + (edgeOffset e).get a := by
  cases a <;> simp only [edgeOffset, edgeMiddle, cubeCorner, Vec3.zipWith, Vec3.get] <;> omega

theorem edgeOffset_injective : ∀ e < 12, ∀ e' < 12, edgeOffset e = edgeOffset e' → e = e' := by
  decide

theorem edgeMiddle_injective (cube : LatticePoint) {e e' : Nat} (he : e < 12) (he' : e' < 12)
    (h : edgeMiddle cube e = edgeMiddle cube e') : e = e' := by
  refine edgeOffset_injective e he e' he' (Vec3.ext_get fun a => ?_)
  have ha := congrArg (Vec3.get · a) h
  simp only [get_edgeMiddle] at ha
  omega

theorem get_edgeOffset_le (a : Axis) : ∀ e < 12, (edgeOffset e).get a ≤ 2 := by
  cases a <;> decide

/-- An edge is told by the two axes across it. -/
theorem edge_eq_of_get_eq {a b : Axis} (hab : a ≠ b) : ∀ e < 12, ∀ e' < 12,
    (edgeOffset e).get a ≠ 1 ∧ (edgeOffset e).get b ≠ 1 →
    (edgeOffset e').get a = (edgeOffset e).get a ∧ (edgeOffset e').get b = (edgeOffset e).get b →
    e = e' := by
  cases a <;> cases b <;> first | exact absurd rfl hab | decide

theorem hasEdge_farFace (a : Axis) :
    ∀ e < 12, (edgeOffset e).get a = 2 → Face.hasEdge (farFace a) e = true := by
  cases a <;> decide

theorem hasEdge_nearFace (a : Axis) :
    ∀ e < 12, (edgeOffset e).get a = 0 → Face.hasEdge (nearFace a) e = true := by
  cases a <;> decide

/-- Cubes with the middles of two edges in common are neighbours. -/
theorem eq_stepForward_of_shared {cube next : LatticePoint} {a : Axis} {e e' f f' : Nat}
    (he : e < 12) (he' : e' < 12) (hf : f < 12) (hf' : f' < 12) (hne : e ≠ e')
    (h : edgeMiddle cube e = edgeMiddle next f) (h' : edgeMiddle cube e' = edgeMiddle next f')
    (hlt : cube.get a < next.get a) :
    next = stepForward cube a ∧
      (Face.hasEdge (farFace a) e = true ∧ Face.hasEdge (farFace a) e' = true) ∧
      (Face.hasEdge (nearFace a) f = true ∧ Face.hasEdge (nearFace a) f' = true) := by
  have hget : ∀ b, 2 * cube.get b + (edgeOffset e).get b = 2 * next.get b + (edgeOffset f).get b ∧
      2 * cube.get b + (edgeOffset e').get b = 2 * next.get b + (edgeOffset f').get b := by
    intro b
    rw [← get_edgeMiddle, ← get_edgeMiddle, ← get_edgeMiddle, ← get_edgeMiddle, h, h']
    exact ⟨rfl, rfl⟩
  have hle : ∀ b, (edgeOffset e).get b ≤ 2 ∧ (edgeOffset e').get b ≤ 2 ∧
      (edgeOffset f).get b ≤ 2 ∧ (edgeOffset f').get b ≤ 2 := fun b =>
    ⟨get_edgeOffset_le b e he, get_edgeOffset_le b e' he', get_edgeOffset_le b f hf,
      get_edgeOffset_le b f' hf'⟩
  obtain ⟨ha, ha'⟩ := hget a
  obtain ⟨hea, hea', hfa, hfa'⟩ := hle a
  have hfar : (edgeOffset e).get a = 2 ∧ (edgeOffset e').get a = 2 := by omega
  have hnear : (edgeOffset f).get a = 0 ∧ (edgeOffset f').get a = 0 := by omega
  refine ⟨Vec3.ext_get fun b => ?_,
    ⟨hasEdge_farFace a e he hfar.1, hasEdge_farFace a e' he' hfar.2⟩,
    hasEdge_nearFace a f hf hnear.1, hasEdge_nearFace a f' hf' hnear.2⟩
  by_cases hba : b = a
  · rw [hba, LatticePoint.get_stepForward_self]
    omega
  · rw [LatticePoint.get_stepForward_of_ne cube hba]
    by_contra hcubes
    -- With two axes across both edges settled the edges would be one.
    obtain ⟨hb, hb'⟩ := hget b
    obtain ⟨heb, heb', hfb, hfb'⟩ := hle b
    exact hne (edge_eq_of_get_eq (Ne.symm hba) e he e' he' ⟨by omega, by omega⟩
      ⟨by omega, by omega⟩)

/-- In the middles of edges, neighbours are related as they are at the origin. -/
theorem edgeMiddle_eq_stepForward_iff (cube : LatticePoint) (a : Axis) (e f : Nat) :
    edgeMiddle cube e = edgeMiddle (stepForward cube a) f ↔
      edgeOffset e = edgeMiddle (stepForward ⟨0, 0, 0⟩ a) f := by
  have hstep : ∀ b, (stepForward cube a).get b =
      cube.get b + (stepForward (⟨0, 0, 0⟩ : LatticePoint) a).get b := by
    intro b
    cases a <;> cases b <;> simp [stepForward, Vec3.get]
  constructor
  · intro h
    refine Vec3.ext_get fun b => ?_
    have hb := congrArg (Vec3.get · b) h
    simp only [get_edgeMiddle, hstep] at hb
    rw [get_edgeMiddle]
    omega
  · intro h
    refine Vec3.ext_get fun b => ?_
    have hb := congrArg (Vec3.get · b) h
    simp only [get_edgeMiddle] at hb
    rw [get_edgeMiddle, get_edgeMiddle, hstep]
    omega

/-! ## The face between two neighbours -/

variable (inside : LatticePoint → Bool)

theorem cubeCorner_stepForward (cube : LatticePoint) (a : Axis) :
    ∀ c ∈ Face.corners (nearFace a),
      cubeCorner (stepForward cube a) c = cubeCorner cube (c + cornerAlong a) := by
  cases a <;> simp [Face.corners, nearFace, cornerAlong, cubeCorner, stepForward]

/-- The walk around a face of a cube, in the lattice. -/
def walk (cube : LatticePoint) (f : Face) : List (LatticePoint × LatticePoint) :=
  (faceSegments (cubeMask inside cube) f).map (Prod.map (edgeMiddle cube) (edgeMiddle cube))

theorem mem_faceRuns_reverse {p q r s u v : LatticePoint} :
    (u, v) ∈ faceRuns inside p s r q ↔ (v, u) ∈ faceRuns inside p q r s := by
  rw [faceRuns, middle_comm p s, middle_comm s r, middle_comm r q, middle_comm q p]
  exact mem_runs_reverse

/-- Two neighbours walk the face between them in opposite directions. -/
theorem mem_walk_stepForward {cube : LatticePoint} {a : Axis} {u v : LatticePoint} :
    (u, v) ∈ walk inside (stepForward cube a) (nearFace a) ↔
      (v, u) ∈ walk inside cube (farFace a) := by
  rw [walk, walk, map_faceSegments_cubeMask inside _ (nearFace_mem_faces a),
    map_faceSegments_cubeMask inside _ (farFace_mem_faces a)]
  cases a <;> exact mem_faceRuns_reverse inside

theorem mem_walk {cube : LatticePoint} {f : Face} (hf : f ∈ faces) {e e' : Nat} (he : e < 12)
    (he' : e' < 12) : (edgeMiddle cube e, edgeMiddle cube e') ∈ walk inside cube f ↔
      (e, e') ∈ faceSegments (cubeMask inside cube) f := by
  rw [walk, List.mem_map]
  constructor
  · rintro ⟨⟨g, g'⟩, hg, heq⟩
    obtain ⟨hlt, hlt'⟩ := mem_faceSegments_lt hf hg
    rw [Prod.map_apply, Prod.mk.injEq] at heq
    obtain rfl := edgeMiddle_injective cube hlt he heq.1
    obtain rfl := edgeMiddle_injective cube hlt' he' heq.2
    exact hg
  · intro h
    exact ⟨(e, e'), h, rfl⟩

/-! ## Pinched faces -/

/-- Whether a side of a patch and a side of the next one along an axis are the same. -/
def haveSharedSide (a : Axis) (mask mask' : CornerMask) : Bool :=
  (PatchTriangle.allSides (patch mask)).any fun s =>
    (PatchTriangle.allSides (patch mask')).any fun t =>
      edgeOffset s.1 == edgeMiddle (stepForward ⟨0, 0, 0⟩ a) t.1 &&
        edgeOffset s.2 == edgeMiddle (stepForward ⟨0, 0, 0⟩ a) t.2

theorem haveSharedSide_pinched (a : Axis) :
    haveSharedSide a (pinchedBelow a) (pinchedAbove a) = true := by
  cases a <;> decide +kernel

/-- Of the two ways in which diagonal corners of a face can be alone outside, only one makes the
diagonals of both fans meet. -/
theorem eq_pinched_of_haveSharedSide (a : Axis) :
    ∀ mask ∈ Face.saddles (farFace a), ∀ mask' ∈ Face.saddles (nearFace a),
      haveSharedSide a mask mask' = true →
      (∀ c ∈ Face.corners (nearFace a), mask'.testBit c = mask.testBit (c + cornerAlong a)) →
      mask = pinchedBelow a ∧ mask' = pinchedAbove a := by
  cases a <;> decide +kernel

theorem mem_allSides_cubeSurface {cube : LatticePoint} {s : LatticePoint × LatticePoint} :
    s ∈ Triangle.allSides (cubeSurface inside cube) ↔
      ∃ t ∈ PatchTriangle.allSides (patch (cubeMask inside cube)),
        Prod.map (edgeMiddle cube) (edgeMiddle cube) t = s := by
  rw [allSides_cubeSurface, get_standard (cubeMask_lt inside cube), List.mem_map]
  rfl

/-- Whether a directed side belongs to two neighbours is settled by their masks. -/
theorem exists_shared_iff (cube : LatticePoint) (a : Axis) :
    (∃ s ∈ Triangle.allSides (cubeSurface inside cube),
        s ∈ Triangle.allSides (cubeSurface inside (stepForward cube a))) ↔
      haveSharedSide a (cubeMask inside cube) (cubeMask inside (stepForward cube a)) = true := by
  simp only [haveSharedSide, List.any_eq_true, Bool.and_eq_true, beq_iff_eq,
    ← edgeMiddle_eq_stepForward_iff cube a, mem_allSides_cubeSurface]
  constructor
  · rintro ⟨_, ⟨s, hs, rfl⟩, t, ht, heq⟩
    rw [Prod.map_apply', Prod.map_apply', Prod.mk.injEq] at heq
    exact ⟨s, hs, t, ht, heq.1.symm, heq.2.symm⟩
  · rintro ⟨s, hs, t, ht, h₁, h₂⟩
    exact ⟨_, ⟨s, hs, rfl⟩, t, ht, Prod.ext h₁.symm h₂.symm⟩

/-- A side on the face between two neighbours that both have makes them saddles there. -/
theorem mem_saddles_of_shared {cube : LatticePoint} {a : Axis} {s t : Nat × Nat}
    (hs : s ∈ PatchTriangle.allSides (patch (cubeMask inside cube)))
    (ht : t ∈ PatchTriangle.allSides (patch (cubeMask inside (stepForward cube a))))
    (hs₁ : Face.hasEdge (farFace a) s.1 = true) (hs₂ : Face.hasEdge (farFace a) s.2 = true)
    (ht₁ : Face.hasEdge (nearFace a) t.1 = true) (ht₂ : Face.hasEdge (nearFace a) t.2 = true)
    (h₁ : edgeMiddle cube s.1 = edgeMiddle (stepForward cube a) t.1)
    (h₂ : edgeMiddle cube s.2 = edgeMiddle (stepForward cube a) t.2) :
    cubeMask inside cube ∈ Face.saddles (farFace a) ∧
      cubeMask inside (stepForward cube a) ∈ Face.saddles (nearFace a) := by
  have hfar := farFace_mem_faces a
  have hnear := nearFace_mem_faces a
  obtain ⟨hlt₁, hlt₂, -⟩ := mem_sides_patch (cubeMask_lt inside _) hs
  obtain ⟨hlt₁', hlt₂', -⟩ := mem_sides_patch (cubeMask_lt inside _) ht
  obtain ⟨hback, halong⟩ := mem_sides_patch_of_hasEdge (cubeMask_lt inside _) hs hfar hs₁ hs₂
  obtain ⟨hback', halong'⟩ := mem_sides_patch_of_hasEdge (cubeMask_lt inside _) ht hnear ht₁ ht₂
  constructor
  · refine halong.resolve_left fun hwalk => hback' ?_
    have hfwd := (mem_walk inside hfar hlt₁ hlt₂).mpr hwalk
    rw [h₁, h₂] at hfwd
    exact (mem_walk inside hnear hlt₂' hlt₁').mp ((mem_walk_stepForward inside).mpr hfwd)
  · refine halong'.resolve_left fun hwalk => hback ?_
    have hfwd := (mem_walk inside hnear hlt₁' hlt₂').mpr hwalk
    rw [← h₁, ← h₂] at hfwd
    exact (mem_walk inside hfar hlt₂ hlt₁).mp ((mem_walk_stepForward inside).mp hfwd)

/-- Of the corners of a cube and of the next one along an axis, only the least and the greatest
corner of the face between them are outside. -/
def Pinched (a : Axis) (cube : LatticePoint) : Prop :=
  (∀ c < 8, inside (cubeCorner cube c) = (c != cornerAlong a && c != 7)) ∧
    ∀ c < 8, inside (cubeCorner (stepForward cube a) c) = (c != 0 && c != 7 - cornerAlong a)

instance (a : Axis) (cube : LatticePoint) : Decidable (Pinched inside a cube) :=
  inferInstanceAs (Decidable (_ ∧ _))

theorem cubeMask_eq_iff {cube : LatticePoint} {mask : CornerMask} (hmask : mask < 256) :
    cubeMask inside cube = mask ↔ ∀ c < 8, inside (cubeCorner cube c) = mask.testBit c := by
  constructor
  · rintro rfl c hc
    exact (testBit_cubeMask inside cube hc).symm
  · intro h
    refine eq_of_testBit_corners (cubeMask_lt inside cube) hmask fun c hc => ?_
    rw [← h c hc, testBit_cubeMask inside cube hc]

theorem pinched_iff {cube : LatticePoint} {a : Axis} :
    Pinched inside a cube ↔ cubeMask inside cube = pinchedBelow a ∧
      cubeMask inside (stepForward cube a) = pinchedAbove a := by
  have hbelow : pinchedBelow a < 256 ∧
      ∀ c < 8, (pinchedBelow a).testBit c = (c != cornerAlong a && c != 7) := by
    cases a <;> decide
  have habove : pinchedAbove a < 256 ∧
      ∀ c < 8, (pinchedAbove a).testBit c = (c != 0 && c != 7 - cornerAlong a) := by
    cases a <;> decide
  rw [Pinched, cubeMask_eq_iff inside hbelow.1, cubeMask_eq_iff inside habove.1]
  refine and_congr (forall₂_congr fun c hc => ?_) (forall₂_congr fun c hc => ?_)
  · rw [hbelow.2 c hc]
  · rw [habove.2 c hc]

/-- Different cubes have a directed side in common just where they meet in a pinched face. -/
theorem exists_pinched_of_shared {cube next : LatticePoint} {a : Axis}
    (hlt : cube.get a < next.get a) {s : LatticePoint × LatticePoint}
    (hs : s ∈ Triangle.allSides (cubeSurface inside cube))
    (ht : s ∈ Triangle.allSides (cubeSurface inside next)) :
    next = stepForward cube a ∧ Pinched inside a cube := by
  obtain ⟨t, ht', heq⟩ := (mem_allSides_cubeSurface inside).mp ht
  obtain ⟨s, hs', rfl⟩ := (mem_allSides_cubeSurface inside).mp hs
  rw [Prod.map_apply', Prod.map_apply', Prod.mk.injEq] at heq
  obtain ⟨hlt₁, hlt₂, hne⟩ := mem_sides_patch (cubeMask_lt inside _) hs'
  obtain ⟨hlt₁', hlt₂', -⟩ := mem_sides_patch (cubeMask_lt inside _) ht'
  obtain ⟨rfl, ⟨hs₁, hs₂⟩, ht₁, ht₂⟩ := eq_stepForward_of_shared hlt₁ hlt₂ hlt₁' hlt₂' hne
    heq.1.symm heq.2.symm hlt
  refine ⟨rfl, ?_⟩
  obtain ⟨hsaddle, hsaddle'⟩ := mem_saddles_of_shared inside hs' ht' hs₁ hs₂ ht₁ ht₂ heq.1.symm
    heq.2.symm
  rw [pinched_iff]
  refine eq_pinched_of_haveSharedSide a _ hsaddle _ hsaddle'
    ((exists_shared_iff inside cube a).mp ⟨_, hs, ht⟩) ?_
  -- The two cubes see the same corners of the face between them.
  intro c hc
  have hlt : c < 8 ∧ c + cornerAlong a < 8 := by
    revert c
    cases a <;> decide
  rw [testBit_cubeMask inside _ hlt.1, testBit_cubeMask inside _ hlt.2,
    cubeCorner_stepForward cube a c hc]

theorem exists_shared_of_pinched {cube : LatticePoint} {a : Axis} (h : Pinched inside a cube) :
    ∃ s ∈ Triangle.allSides (cubeSurface inside cube),
      s ∈ Triangle.allSides (cubeSurface inside (stepForward cube a)) := by
  obtain ⟨hbelow, habove⟩ := (pinched_iff inside).mp h
  rw [exists_shared_iff, hbelow, habove]
  exact haveSharedSide_pinched a

end MarchingCubes

end SolidSurface

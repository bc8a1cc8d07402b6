import SolidSurface.Proofs.CubeCase.FaceSides

/-! # The corners of a patch

The corners of the triangles of a patch are the edges of the cube that cross the surface. As for the
sides of a patch, the drawn masks are checked and rotations carry the result to all others.
-/

namespace SolidSurface.CubeCase

namespace PatchTriangle

/-- The edges that the corners of a list of triangles lie on. -/
def allCorners (ts : List PatchTriangle) : List Nat :=
  ts.flatMap fun t => [t.a, t.b, t.c]

theorem allCorners_map (f : Nat → Nat) (ts : List PatchTriangle) :
    allCorners (ts.map (map f)) = (allCorners ts).map f := by
  rw [allCorners, allCorners, List.flatMap_map, List.map_flatMap]
  rfl

end PatchTriangle

/-! ## Rotations of edges -/

theorem edgeJoining?_edgeEnds : ∀ e < 12,
    edgeJoining? (edgeEnds e).1 (edgeEnds e).2 = some e := by
  decide

/-- Of the two faces at an edge one is walked in the direction of the edge. -/
theorem exists_face_along_edge : ∀ e < 12, ∃ f ∈ faces, edgeEnds e = (f.1, f.2.1) ∨
    edgeEnds e = (f.2.1, f.2.2.1) ∨ edgeEnds e = (f.2.2.1, f.2.2.2) ∨
    edgeEnds e = (f.2.2.2, f.1) := by
  decide

namespace Rotation

variable {r : Rotation} (hr : r ∈ all)

include hr

theorem keepsEdge_edgeEnds {e : Nat} (he : e < 12) :
    r.keepsEdge (edgeEnds e).1 (edgeEnds e).2 = true := by
  obtain ⟨f, hf, hends⟩ := exists_face_along_edge e he
  obtain ⟨h₁, h₂, h₃, h₄⟩ := keepsEdge_of_mem_faces hr hf
  rcases hends with h | h | h | h <;> rw [h] <;> assumption

theorem edgeEnds_onEdge {e : Nat} (he : e < 12) :
    edgeEnds (r.onEdge e) = (r.image (edgeEnds e).1, r.image (edgeEnds e).2) ∨
      edgeEnds (r.onEdge e) = (r.image (edgeEnds e).2, r.image (edgeEnds e).1) :=
  edgeEnds_of_edgeJoining?
    (edgeJoining?_image (keepsEdge_edgeEnds hr he) (edgeJoining?_edgeEnds e he))

theorem crosses_onEdge (mask : CornerMask) {e : Nat} (he : e < 12) :
    crosses (r.onMask mask) (r.onEdge e) = crosses mask e := by
  obtain ⟨hfirst, hsecond⟩ := edgeEnds_lt e he
  rw [crosses, crosses]
  rcases edgeEnds_onEdge hr he with h | h
  · rw [h, testBit_onMask hr mask hfirst, testBit_onMask hr mask hsecond]
  · rw [h, testBit_onMask hr mask hfirst, testBit_onMask hr mask hsecond, bne_comm]

theorem exists_onEdge_eq {e : Nat} (he : e < 12) : ∃ e' < 12, r.onEdge e' = e := by
  obtain ⟨s, hs, hback⟩ := (symmetric_on_edges r hr).1
  have hlt := onEdge_lt hs he
  refine ⟨s.onEdge e, hlt, onEdge_injective hs (onEdge_lt hr hlt) he ?_⟩
  rw [(hback _ hlt).2]

end Rotation

/-! ## The crossing edges of a mask -/

/-- The corners of a drawn patch are the crossing edges of its mask. -/
theorem mem_allCorners_draw : ∀ mask ∈ leastMasks,
    (∀ e ∈ PatchTriangle.allCorners (draw mask), e < 12) ∧
    ∀ e < 12, e ∈ PatchTriangle.allCorners (draw mask) ↔ crosses mask e = true := by
  decide +kernel

/-- The corners of a patch are the crossing edges of its mask. -/
theorem mem_allCorners_patch_iff {mask : CornerMask} (hmask : mask < 256) {e : Nat} :
    e ∈ PatchTriangle.allCorners (patch mask) ↔ e < 12 ∧ crosses mask e = true := by
  obtain ⟨r, hr, hturn, hpatch⟩ := exists_patch_eq_map_draw hmask
  obtain ⟨hlt, hcrosses⟩ := mem_allCorners_draw _ (leastImage_mem_leastMasks mask hmask)
  rw [hpatch, PatchTriangle.allCorners_map, List.mem_map]
  constructor
  · rintro ⟨e', he', rfl⟩
    refine ⟨Rotation.onEdge_lt hr (hlt e' he'), ?_⟩
    rw [← hturn, Rotation.crosses_onEdge hr _ (hlt e' he')]
    exact (hcrosses e' (hlt e' he')).mp he'
  · rintro ⟨he, hcross⟩
    obtain ⟨e', he', rfl⟩ := Rotation.exists_onEdge_eq hr he
    rw [← hturn, Rotation.crosses_onEdge hr _ he'] at hcross
    exact ⟨e', (hcrosses e' he').mpr hcross, rfl⟩

end SolidSurface.CubeCase

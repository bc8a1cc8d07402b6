import Mathlib.Data.List.Nodup
import SolidSurface.Proofs.CubeCase.PatchBoundary

/-! # The sides of a patch that lie on a face

Most sides on a face of the cube are segments of the walk around it. Where only two diagonal corners
of a face are outside, the whole boundary of the patch is one loop, and the fan that it is cut into
may have a diagonal on that face. As for the boundary of a patch, the drawn masks are checked and
rotations carry the result to all others.
-/

namespace SolidSurface.CubeCase

def PatchTriangle.allSides (ts : List PatchTriangle) : List (Nat × Nat) :=
  ts.flatMap sides

namespace Face

def corners (f : Face) : List Nat :=
  [f.1, f.2.1, f.2.2.1, f.2.2.2]

/-- Whether both ends of an edge are corners of a face. -/
def hasEdge (f : Face) (e : Nat) : Bool :=
  (corners f).contains (edgeEnds e).1 && (corners f).contains (edgeEnds e).2

/-- The masks with all corners inside but two that are diagonal on the face. -/
def saddles (f : Face) : List CornerMask :=
  [255 - 2 ^ f.1 - 2 ^ f.2.2.1, 255 - 2 ^ f.2.1 - 2 ^ f.2.2.2]

end Face

/-! ## Rotations of edges -/

namespace Rotation

/-- A rotation moves the edges of the cube so that it can be undone, and with a face it turns the
edges and the saddles there. -/
theorem symmetric_on_edges : ∀ r ∈ all,
    (∃ s ∈ all, ∀ e < 12, r.onEdge e < 12 ∧ s.onEdge (r.onEdge e) = e) ∧
    ∀ f ∈ faces,
      (∀ e < 12, Face.hasEdge (r.onFace f).fromLeast (r.onEdge e) = Face.hasEdge f e) ∧
      ∀ mask ∈ Face.saddles f, r.onMask mask ∈ Face.saddles (r.onFace f).fromLeast := by
  decide +kernel

variable {r : Rotation} (hr : r ∈ all)

include hr

theorem onEdge_lt {e : Nat} (he : e < 12) : r.onEdge e < 12 := by
  obtain ⟨s, -, hback⟩ := (symmetric_on_edges r hr).1
  exact (hback e he).1

theorem onEdge_injective {e e' : Nat} (he : e < 12) (he' : e' < 12)
    (h : r.onEdge e = r.onEdge e') : e = e' := by
  obtain ⟨s, -, hback⟩ := (symmetric_on_edges r hr).1
  rw [← (hback e he).2, h, (hback e' he').2]

variable {f : Face} (hf : f ∈ faces)

include hf

theorem hasEdge_onFace {e : Nat} (he : e < 12) :
    Face.hasEdge (r.onFace f).fromLeast (r.onEdge e) = Face.hasEdge f e :=
  ((symmetric_on_edges r hr).2 f hf).1 e he

theorem onMask_mem_saddles {mask : CornerMask} (h : mask ∈ Face.saddles f) :
    r.onMask mask ∈ Face.saddles (r.onFace f).fromLeast :=
  ((symmetric_on_edges r hr).2 f hf).2 mask h

end Rotation

/-! ## Drawn masks -/

/-- No side of a drawn patch comes twice, each joins two edges of the cube, and one that lies on a
face is a segment of the walk around it, or the face is a saddle. -/
theorem sides_draw : ∀ mask ∈ leastMasks,
    (PatchTriangle.allSides (draw mask)).Nodup ∧
    ∀ s ∈ PatchTriangle.allSides (draw mask), (s.1 < 12 ∧ s.2 < 12 ∧ s.1 ≠ s.2) ∧
      ∀ f ∈ faces, Face.hasEdge f s.1 = true → Face.hasEdge f s.2 = true →
        s.swap ∉ faceSegments mask f ∧ (s ∈ faceSegments mask f ∨ mask ∈ Face.saddles f) := by
  decide +kernel

/-! ## All masks -/

/-- The sides of a patch are those of a drawn one, turned. -/
theorem exists_sides_patch_eq {mask : CornerMask} (hmask : mask < 256) :
    ∃ r ∈ Rotation.all, ∃ base ∈ leastMasks, r.onMask base = mask ∧
      PatchTriangle.allSides (patch mask) =
        (PatchTriangle.allSides (draw base)).map (Prod.map r.onEdge r.onEdge) := by
  obtain ⟨r, hr, hturn, hpatch⟩ := exists_patch_eq_map_draw hmask
  refine ⟨r, hr, leastImage mask, leastImage_mem_leastMasks mask hmask, hturn, ?_⟩
  rw [hpatch]
  exact PatchTriangle.flatMap_sides_map r.onEdge _

/-- No triangle of a patch has a side in common with another one in the same direction. -/
theorem sides_patch_nodup {mask : CornerMask} (hmask : mask < 256) :
    (PatchTriangle.allSides (patch mask)).Nodup := by
  obtain ⟨r, hr, base, hbase, -, hsides⟩ := exists_sides_patch_eq hmask
  rw [hsides]
  refine List.Nodup.map_on ?_ (sides_draw base hbase).1
  rintro ⟨u, v⟩ hs ⟨u', v'⟩ hs' heq
  obtain ⟨hu, hv, -⟩ := ((sides_draw base hbase).2 _ hs).1
  obtain ⟨hu', hv', -⟩ := ((sides_draw base hbase).2 _ hs').1
  rw [Prod.map_apply, Prod.map_apply, Prod.mk.injEq] at heq
  exact Prod.ext (Rotation.onEdge_injective hr hu hu' heq.1)
    (Rotation.onEdge_injective hr hv hv' heq.2)

theorem mem_sides_patch {mask : CornerMask} (hmask : mask < 256) {s : Nat × Nat}
    (hs : s ∈ PatchTriangle.allSides (patch mask)) : s.1 < 12 ∧ s.2 < 12 ∧ s.1 ≠ s.2 := by
  obtain ⟨r, hr, base, hbase, -, hsides⟩ := exists_sides_patch_eq hmask
  rw [hsides, List.mem_map] at hs
  obtain ⟨⟨u, v⟩, hs, rfl⟩ := hs
  obtain ⟨hu, hv, hne⟩ := ((sides_draw base hbase).2 _ hs).1
  exact ⟨Rotation.onEdge_lt hr hu, Rotation.onEdge_lt hr hv,
    fun h => hne (Rotation.onEdge_injective hr hu hv h)⟩

/-- A side on a face is never a segment of the walk turned around, and it is one as it runs unless
just two diagonal corners of the face are outside. -/
theorem mem_sides_patch_of_hasEdge {mask : CornerMask} (hmask : mask < 256) {s : Nat × Nat}
    (hs : s ∈ PatchTriangle.allSides (patch mask)) {f : Face} (hf : f ∈ faces)
    (h₁ : Face.hasEdge f s.1 = true) (h₂ : Face.hasEdge f s.2 = true) :
    s.swap ∉ faceSegments mask f ∧ (s ∈ faceSegments mask f ∨ mask ∈ Face.saddles f) := by
  obtain ⟨r, hr, base, hbase, rfl, hsides⟩ := exists_sides_patch_eq hmask
  rw [hsides, List.mem_map] at hs
  obtain ⟨⟨u, v⟩, hs, rfl⟩ := hs
  obtain ⟨hu, hv, -⟩ := ((sides_draw base hbase).2 _ hs).1
  obtain ⟨g, hg, rfl⟩ := List.mem_map.mp ((Rotation.faces_map_onFace_perm hr).mem_iff.mpr hf)
  rw [Prod.map_fst, Rotation.hasEdge_onFace hr hg hu] at h₁
  rw [Prod.map_snd, Rotation.hasEdge_onFace hr hg hv] at h₂
  obtain ⟨hback, halong⟩ := ((sides_draw base hbase).2 _ hs).2 g hg h₁ h₂
  have hwalk : ∀ t, t ∈ faceSegments (r.onMask base) (r.onFace g).fromLeast ↔
      ∃ t' ∈ faceSegments base g, Prod.map r.onEdge r.onEdge t' = t := by
    intro t
    rw [(faceSegments_fromLeast _ _).mem_iff, Rotation.faceSegments_onFace hr hg, List.mem_map]
  constructor
  · rw [hwalk]
    rintro ⟨⟨v', u'⟩, ht, heq⟩
    obtain ⟨hv', hu'⟩ := mem_faceSegments_lt hg ht
    rw [Prod.map_apply, Prod.map_apply, Prod.swap_prod_mk, Prod.mk.injEq] at heq
    obtain rfl := Rotation.onEdge_injective hr hv' hv heq.1
    obtain rfl := Rotation.onEdge_injective hr hu' hu heq.2
    exact hback ht
  · rcases halong with halong | halong
    · exact .inl ((hwalk _).mpr ⟨(u, v), halong, rfl⟩)
    · exact .inr (Rotation.onMask_mem_saddles hr hg halong)

end SolidSurface.CubeCase

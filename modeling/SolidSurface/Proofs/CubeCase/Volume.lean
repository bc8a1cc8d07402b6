import SolidSurface.Proofs.CubeCase.PatchCorners
import SolidSurface.Proofs.Mesh.Volume

/-! # The volume inside a cube

Seen from the middle of a cube, the part of it that a patch leaves inside is made of the cones over
the triangles of the patch and over the inside parts of the faces. Lengths are measured in half the
side of the cube, so that the middles of its edges are whole numbers, and a full cube counts 48. The
drawn masks are checked, and rotations, which act on what is seen from the middle as matrices, carry
the result to all others.
-/

namespace SolidSurface.CubeCase

/-! ## Seen from the middle -/

/-- Corner `c`, seen from the middle of the cube. -/
def cornerFromMiddle (c : Nat) : Vec3 ℤ :=
  ⟨2 * ((c % 2 : Nat) : ℤ) - 1, 2 * ((c / 2 % 2 : Nat) : ℤ) - 1, 2 * ((c / 4 % 2 : Nat) : ℤ) - 1⟩

/-- The middle of edge `e`, seen from the middle of the cube. -/
def edgeFromMiddle (e : Nat) : Vec3 ℤ :=
  Vec3.zipWith (fun x y => (x + y) / 2) (cornerFromMiddle (edgeEnds e).1)
    (cornerFromMiddle (edgeEnds e).2)

def PatchTriangle.fromMiddle (t : PatchTriangle) : Triangle ℤ :=
  ⟨edgeFromMiddle t.a, edgeFromMiddle t.b, edgeFromMiddle t.c⟩

/-- The images of the unit vectors, applied to `u`. -/
def combine (m : Vec3 (Vec3 ℤ)) (u : Vec3 ℤ) : Vec3 ℤ :=
  ⟨m.x.x * u.x + m.y.x * u.y + m.z.x * u.z, m.x.y * u.x + m.y.y * u.y + m.z.y * u.z,
   m.x.z * u.x + m.y.z * u.y + m.z.z * u.z⟩

theorem coneVolume_combine (m : Vec3 (Vec3 ℤ)) (t : Triangle ℤ) :
    (t.map (combine m)).coneVolume = m.x.triple m.y m.z * t.coneVolume := by
  simp only [Triangle.coneVolume, Triangle.map, Vec3.triple, Vec3.wedge, combine]
  ring

theorem wedge_combine {m : Vec3 (Vec3 ℤ)} (hx : m.y.wedge m.z = m.x) (hy : m.z.wedge m.x = m.y)
    (hz : m.x.wedge m.y = m.z) (u v : Vec3 ℤ) :
    (combine m u).wedge (combine m v) = combine m (u.wedge v) := by
  calc (combine m u).wedge (combine m v)
      = combine ⟨m.y.wedge m.z, m.z.wedge m.x, m.x.wedge m.y⟩ (u.wedge v) := by
        simp only [Vec3.wedge, combine, Vec3.mk.injEq]
        refine ⟨?_, ?_, ?_⟩ <;> ring
    _ = combine m (u.wedge v) := by rw [hx, hy, hz]

/-! ## Sums of vectors -/

/-- The sum of what `f` gives for the members of a list. -/
def vectorSum {β : Type} (l : List β) (f : β → Vec3 ℤ) : Vec3 ℤ :=
  ⟨(l.map fun b => (f b).x).sum, (l.map fun b => (f b).y).sum, (l.map fun b => (f b).z).sum⟩

theorem vectorSum_combine {β : Type} (m : Vec3 (Vec3 ℤ)) (l : List β) (f : β → Vec3 ℤ) :
    vectorSum l (fun b => combine m (f b)) = combine m (vectorSum l f) := by
  simp only [vectorSum, combine, List.sum_map_add, List.sum_map_mul_left]

theorem combine_map_mul (m : Vec3 (Vec3 ℤ)) (k : ℤ) (u : Vec3 ℤ) :
    combine m (u.map (k * ·)) = (combine m u).map (k * ·) := by
  simp only [combine, Vec3.map, Vec3.mk.injEq]
  refine ⟨?_, ?_, ?_⟩ <;> ring

theorem areaVector_combine {m : Vec3 (Vec3 ℤ)} (hx : m.y.wedge m.z = m.x)
    (hy : m.z.wedge m.x = m.y) (hz : m.x.wedge m.y = m.z) (t : Triangle ℤ) :
    (t.map (combine m)).areaVector = combine m t.areaVector := by
  simp only [Triangle.areaVector, Triangle.map, wedge_combine hx hy hz]
  simp only [combine, Vec3.mk.injEq]
  refine ⟨?_, ?_, ?_⟩ <;> ring

/-! ## Faces -/

/-- Twice the area of the part of a face that its segments leave inside, from the corners in their
order. Two inside corners that face each other diagonally are cut off one by one. -/
def insideArea (p q r s : Bool) : ℤ :=
  match p.toNat + q.toNat + r.toNat + s.toNat with
  | 0 => 0
  | 1 => 1
  | 2 => if p == r then 2 else 4
  | 3 => 7
  | _ => 8

theorem insideArea_turn (p q r s : Bool) : insideArea q r s p = insideArea p q r s := by
  cases p <;> cases q <;> cases r <;> cases s <;> rfl

theorem insideArea_reverse (p q r s : Bool) : insideArea p s r q = insideArea p q r s := by
  cases p <;> cases q <;> cases r <;> cases s <;> rfl

def faceArea (mask : CornerMask) (f : Face) : ℤ :=
  insideArea (mask.testBit f.1) (mask.testBit f.2.1) (mask.testBit f.2.2.1) (mask.testBit f.2.2.2)

/-- Four times the unit vector out of the cube through a face. -/
def Face.outward (f : Face) : Vec3 ℤ :=
  vectorSum [f.1, f.2.1, f.2.2.1, f.2.2.2] cornerFromMiddle

def faceVector (mask : CornerMask) (f : Face) : Vec3 ℤ :=
  (Face.outward f).map (faceArea mask f * ·)

/-- Whatever does not depend on the corner that a face is walked from. -/
theorem Face.apply_fromLeast {δ : Type} {g : Face → δ}
    (hg : ∀ p q r s, g (q, r, s, p) = g (p, q, r, s)) (f : Face) : g f.fromLeast = g f := by
  obtain ⟨p, q, r, s⟩ := f
  have hq := hg p q r s
  have hr := (hg q r s p).trans hq
  have hs := (hg r s p q).trans hr
  simp only [fromLeast]
  split_ifs
  · rfl
  · exact hq
  · exact hr
  · exact hs

theorem faceArea_turn (mask : CornerMask) (p q r s : Nat) :
    faceArea mask (q, r, s, p) = faceArea mask (p, q, r, s) :=
  insideArea_turn _ _ _ _

theorem Face.outward_turn (p q r s : Nat) :
    Face.outward (q, r, s, p) = Face.outward (p, q, r, s) := by
  simp only [outward, vectorSum, List.map_cons, List.map_nil, List.sum_cons, List.sum_nil,
    Vec3.mk.injEq]
  refine ⟨?_, ?_, ?_⟩ <;> ring

theorem faceVector_turn (mask : CornerMask) (p q r s : Nat) :
    faceVector mask (q, r, s, p) = faceVector mask (p, q, r, s) := by
  rw [faceVector, faceArea_turn, Face.outward_turn, faceVector]

/-! ## Rotations -/

namespace Rotation

/-- The images of the unit vectors. -/
def matrix (r : Rotation) : Vec3 (Vec3 ℤ) :=
  let half c := Vec3.zipWith (fun x y => (x - y) / 2) (cornerFromMiddle (r.image c))
    (cornerFromMiddle (r.image 0))
  ⟨half 1, half 2, half 4⟩

/-- Seen from the middle a rotation acts as a matrix, which keeps volumes and cross products. -/
theorem matrix_of_mem_all : ∀ r ∈ all,
    (∀ c < 8, cornerFromMiddle (r.image c) = combine r.matrix (cornerFromMiddle c)) ∧
    (∀ e < 12, edgeFromMiddle (r.onEdge e) = combine r.matrix (edgeFromMiddle e)) ∧
    r.matrix.y.wedge r.matrix.z = r.matrix.x ∧ r.matrix.z.wedge r.matrix.x = r.matrix.y ∧
    r.matrix.x.wedge r.matrix.y = r.matrix.z ∧ r.matrix.x.triple r.matrix.y r.matrix.z = 1 := by
  decide +kernel

variable {r : Rotation} (hr : r ∈ all)

include hr

theorem fromMiddle_map_onEdge {t : PatchTriangle} (ha : t.a < 12) (hb : t.b < 12) (hc : t.c < 12) :
    (t.map r.onEdge).fromMiddle = t.fromMiddle.map (combine r.matrix) := by
  have hedges := (matrix_of_mem_all r hr).2.1
  simp only [PatchTriangle.fromMiddle, PatchTriangle.map, Triangle.map, hedges _ ha, hedges _ hb,
    hedges _ hc]

variable {f : Face} (hf : f ∈ faces)

include hf

theorem faceArea_onFace (mask : CornerMask) :
    faceArea (r.onMask mask) (r.onFace f) = faceArea mask f := by
  obtain ⟨hp, hq, hu, hv⟩ := corners_lt_of_mem_faces f hf
  simp only [faceArea, onFace, testBit_onMask hr mask hp, testBit_onMask hr mask hq,
    testBit_onMask hr mask hu, testBit_onMask hr mask hv]

theorem outward_onFace : Face.outward (r.onFace f) = combine r.matrix (Face.outward f) := by
  have hcorners := (matrix_of_mem_all r hr).1
  obtain ⟨hp, hq, hu, hv⟩ := corners_lt_of_mem_faces f hf
  rw [Face.outward, Face.outward, ← vectorSum_combine]
  simp only [vectorSum, onFace, List.map_cons, List.map_nil, hcorners _ hp, hcorners _ hq,
    hcorners _ hu, hcorners _ hv]

theorem faceVector_onFace (mask : CornerMask) :
    faceVector (r.onMask mask) (r.onFace f) = combine r.matrix (faceVector mask f) := by
  rw [faceVector, faceArea_onFace hr hf, outward_onFace hr hf, faceVector, combine_map_mul]

omit hf

/-- A sum over the faces is one over their images. -/
theorem sum_map_onFace {g : Face → ℤ} (hg : ∀ p q u v, g (q, u, v, p) = g (p, q, u, v)) :
    (faces.map g).sum = (faces.map fun f => g (r.onFace f)).sum := by
  rw [← ((faces_map_onFace_perm hr).map g).sum_eq, List.map_map]
  congr 1
  exact List.map_congr_left fun f _ => Face.apply_fromLeast hg _

end Rotation

/-! ## Patches -/

/-- The cones over the triangles of a patch. -/
def patchVolume (ts : List PatchTriangle) : ℤ :=
  (ts.map fun t => t.fromMiddle.coneVolume).sum

def patchVector (ts : List PatchTriangle) : Vec3 ℤ :=
  vectorSum ts fun t => t.fromMiddle.areaVector

section Turned

variable {r : Rotation} (hr : r ∈ Rotation.all) {ts : List PatchTriangle}
  (hts : ∀ e ∈ PatchTriangle.allCorners ts, e < 12)

include hr hts

theorem fromMiddle_map_of_mem {t : PatchTriangle} (ht : t ∈ ts) :
    (t.map r.onEdge).fromMiddle = t.fromMiddle.map (combine r.matrix) := by
  have hlt : ∀ e ∈ [t.a, t.b, t.c], e < 12 := fun e he =>
    hts e (List.mem_flatMap.mpr ⟨t, ht, he⟩)
  exact Rotation.fromMiddle_map_onEdge hr (hlt t.a (by simp)) (hlt t.b (by simp))
    (hlt t.c (by simp))

theorem patchVolume_map_onEdge :
    patchVolume (ts.map (PatchTriangle.map r.onEdge)) = patchVolume ts := by
  obtain ⟨-, -, -, -, -, hunit⟩ := Rotation.matrix_of_mem_all r hr
  rw [patchVolume, List.map_map, patchVolume]
  congr 1
  refine List.map_congr_left fun t ht => ?_
  rw [Function.comp_apply, fromMiddle_map_of_mem hr hts ht, coneVolume_combine, hunit, one_mul]

theorem patchVector_map_onEdge :
    patchVector (ts.map (PatchTriangle.map r.onEdge)) = combine r.matrix (patchVector ts) := by
  obtain ⟨-, -, hx, hy, hz, -⟩ := Rotation.matrix_of_mem_all r hr
  have hturn : ∀ t ∈ ts, (t.map r.onEdge).fromMiddle.areaVector =
      combine r.matrix t.fromMiddle.areaVector := fun t ht => by
    rw [fromMiddle_map_of_mem hr hts ht, areaVector_combine hx hy hz]
  rw [patchVector, patchVector, ← vectorSum_combine]
  simp only [vectorSum, List.map_map, Vec3.mk.injEq]
  refine ⟨?_, ?_, ?_⟩ <;> congr 1 <;> refine List.map_congr_left fun t ht => ?_ <;>
    rw [Function.comp_apply, hturn t ht]

end Turned

/-- The volume inside a cube, as the cones from its middle. -/
def insideVolume (mask : CornerMask) : ℤ :=
  patchVolume (patch mask) + (faces.map (faceArea mask)).sum

/-- With a drawn patch the inside of a cube is closed, and there is some but for the empty mask. -/
theorem closed_draw : ∀ mask ∈ leastMasks,
    vectorSum faces (faceVector mask) = (patchVector (draw mask)).map (-4 * ·) ∧
    (patchVolume (draw mask) + (faces.map (faceArea mask)).sum ≤ 48 ∧
      (mask = 0 ∨ 0 < patchVolume (draw mask) + (faces.map (faceArea mask)).sum)) := by
  decide +kernel

/-! ## All masks -/

/-- A turned cube has as much inside. -/
theorem exists_insideVolume_eq {mask : CornerMask} (hmask : mask < 256) :
    ∃ r ∈ Rotation.all, ∃ base ∈ leastMasks, r.onMask base = mask ∧
      insideVolume mask = patchVolume (draw base) + (faces.map (faceArea base)).sum := by
  obtain ⟨r, hr, hturn, hpatch⟩ := exists_patch_eq_map_draw hmask
  have hbase := leastImage_mem_leastMasks mask hmask
  have harea : (faces.map (faceArea mask)).sum = (faces.map (faceArea (leastImage mask))).sum := by
    rw [Rotation.sum_map_onFace (g := faceArea mask) hr (faceArea_turn mask)]
    refine congrArg List.sum (List.map_congr_left fun f hf => ?_)
    have hface := Rotation.faceArea_onFace hr hf (leastImage mask)
    rwa [hturn] at hface
  refine ⟨r, hr, leastImage mask, hbase, hturn, ?_⟩
  rw [insideVolume, hpatch, patchVolume_map_onEdge hr (mem_allCorners_draw _ hbase).1, harea]

theorem insideVolume_le {mask : CornerMask} (hmask : mask < 256) : insideVolume mask ≤ 48 := by
  obtain ⟨r, -, base, hbase, -, hvolume⟩ := exists_insideVolume_eq hmask
  rw [hvolume]
  exact (closed_draw base hbase).2.1

/-- There is something inside a cube as soon as a corner is. -/
theorem insideVolume_pos {mask : CornerMask} (hmask : mask < 256) (hne : mask ≠ 0) :
    0 < insideVolume mask := by
  obtain ⟨r, -, base, hbase, hturn, hvolume⟩ := exists_insideVolume_eq hmask
  rw [hvolume]
  refine (closed_draw base hbase).2.2.resolve_left fun hzero => hne ?_
  rw [← hturn, hzero, Rotation.onMask_zero]

theorem insideVolume_zero_full : insideVolume 0 = 0 ∧ insideVolume 255 = 48 := by
  decide +kernel

theorem faceVector_sum {mask : CornerMask} (hmask : mask < 256) :
    vectorSum faces (faceVector mask) = (patchVector (patch mask)).map (-4 * ·) := by
  obtain ⟨r, hr, hturn, hpatch⟩ := exists_patch_eq_map_draw hmask
  have hbase := leastImage_mem_leastMasks mask hmask
  have hfaces : vectorSum faces (faceVector mask) =
      vectorSum faces fun f => combine r.matrix (faceVector (leastImage mask) f) := by
    simp only [vectorSum, Vec3.mk.injEq]
    refine ⟨?_, ?_, ?_⟩
    all_goals
      rw [Rotation.sum_map_onFace hr fun p q u v => by rw [faceVector_turn]]
      congr 1
      refine List.map_congr_left fun f hf => ?_
      rw [← Rotation.faceVector_onFace hr hf, hturn]
  rw [hfaces, vectorSum_combine, (closed_draw _ hbase).1, combine_map_mul, hpatch,
    patchVector_map_onEdge hr (mem_allCorners_draw _ hbase).1]

/-- Along every axis the area of a patch is what more is inside on the near face than on the far
one. -/
theorem patchVector_patch {mask : CornerMask} (hmask : mask < 256) : patchVector (patch mask) =
    ⟨faceArea mask (0, 4, 6, 2) - faceArea mask (1, 3, 7, 5),
     faceArea mask (0, 1, 5, 4) - faceArea mask (2, 6, 7, 3),
     faceArea mask (0, 2, 3, 1) - faceArea mask (4, 5, 7, 6)⟩ := by
  have hsum := faceVector_sum hmask
  simp only [vectorSum, faces, faceVector, Face.outward, cornerFromMiddle, List.map_cons,
    List.map_nil, List.sum_cons, List.sum_nil, Vec3.map, Vec3.mk.injEq] at hsum
  obtain ⟨hx, hy, hz⟩ := hsum
  apply Vec3.ext_get
  rintro (_ | _ | _) <;> simp only [Vec3.get] <;> omega

end SolidSurface.CubeCase

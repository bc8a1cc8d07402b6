import SolidSurface.Proofs.CubeCase.FaceWalk

/-! # The boundary of a patch

The sides of a patch that do not cancel within it are the segments of its mask. This is checked on
the masks that are drawn, one for each class under rotation, and carried to all others: a rotation
takes the segments of a mask to the segments of the turned mask.
-/

namespace SolidSurface.CubeCase

/-! ## Rotations -/

namespace Rotation

def onFace (r : Rotation) (f : Face) : Face :=
  (r.image f.1, r.image f.2.1, r.image f.2.2.1, r.image f.2.2.2)

/-- Whether the edge between the images of two corners is the image of the edge between them. -/
def keepsEdge (r : Rotation) (c d : Nat) : Bool :=
  edgeJoining? (r.image c) (r.image d) == (edgeJoining? c d).map r.onEdge

/-- A rotation can be undone, it keeps the edges of the faces, and it permutes the faces. -/
theorem symmetric_of_mem_all : ∀ r ∈ all,
    (∃ s ∈ all, ∀ c < 8, r.image c < 8 ∧ s.image (r.image c) = c) ∧
    (∀ f ∈ faces, r.keepsEdge f.1 f.2.1 = true ∧ r.keepsEdge f.2.1 f.2.2.1 = true ∧
      r.keepsEdge f.2.2.1 f.2.2.2 = true ∧ r.keepsEdge f.2.2.2 f.1 = true) ∧
    (faces.map fun f => (r.onFace f).fromLeast).Perm faces := by
  decide +kernel

theorem mem_collect_of_mem {group : List Rotation} {r : Rotation} (h : r ∈ group)
    (s : Rotation) : r ∈ collect group s := by
  rw [collect]
  split
  · exact h
  · exact List.mem_append_left _ h

theorem mem_expand_of_mem {group : List Rotation} {r : Rotation} (h : r ∈ group) (i : Nat) :
    r ∈ expand group i := by
  rw [expand]
  split
  · exact mem_collect_of_mem (mem_collect_of_mem h _) _
  · exact h

theorem identity_mem_all : identity ∈ all := by
  have hfoldl : ∀ (is : List Nat) (group : List Rotation), identity ∈ group →
      identity ∈ is.foldl expand group := by
    intro is
    induction is with
    | nil => exact fun _ h => h
    | cons i is ih => exact fun group h => ih _ (mem_expand_of_mem h i)
  exact hfoldl _ _ List.mem_cons_self

end Rotation

/-! ## Rotations of corners -/

theorem Rotation.exists_inverse {r : Rotation} (hr : r ∈ Rotation.all) :
    ∃ s ∈ Rotation.all, ∀ c < 8, s.image (r.image c) = c := by
  obtain ⟨s, hs, hback⟩ := (symmetric_of_mem_all r hr).1
  exact ⟨s, hs, fun c hc => (hback c hc).2⟩

theorem Rotation.image_lt {r : Rotation} (hr : r ∈ Rotation.all) {c : Nat} (hc : c < 8) :
    r.image c < 8 := by
  obtain ⟨s, -, hback⟩ := (symmetric_of_mem_all r hr).1
  exact (hback c hc).1

theorem Rotation.image_injective {r : Rotation} (hr : r ∈ Rotation.all) {c d : Nat} (hc : c < 8)
    (hd : d < 8) (h : r.image c = r.image d) : c = d := by
  obtain ⟨s, -, hs⟩ := Rotation.exists_inverse hr
  rw [← hs c hc, h, hs d hd]

namespace Rotation

variable {r : Rotation} (hr : r ∈ Rotation.all)

include hr

theorem testBit_onMask (mask : CornerMask) {c : Nat} (hc : c < 8) :
    (r.onMask mask).testBit (r.image c) = mask.testBit c := by
  rw [onMask, testBit_foldl_or, Nat.zero_testBit, Bool.false_or, Bool.eq_iff_iff, List.any_eq_true]
  constructor
  · rintro ⟨d, hd, h⟩
    rw [Bool.and_eq_true, beq_iff_eq] at h
    rw [← image_injective hr (List.mem_range.mp hd) hc h.2]
    exact h.1
  · intro h
    exact ⟨c, List.mem_range.mpr hc, by simp [h]⟩

theorem onMask_lt (mask : CornerMask) : r.onMask mask < 256 :=
  foldl_or_lt mask.testBit r.image fun _ => image_lt hr

theorem onMask_onMask {s : Rotation} (hs : s ∈ Rotation.all)
    (hrs : ∀ c < 8, s.image (r.image c) = c) {mask : CornerMask} (hmask : mask < 256) :
    s.onMask (r.onMask mask) = mask := by
  apply eq_of_testBit_corners (onMask_lt hs _) hmask
  intro c hc
  have hback := testBit_onMask hs (r.onMask mask) (image_lt hr hc)
  rw [hrs c hc] at hback
  rw [hback, testBit_onMask hr mask hc]

end Rotation

theorem Rotation.onMask_zero (r : Rotation) : r.onMask 0 = 0 := by
  simp [onMask]

theorem Rotation.identity_onMask {mask : CornerMask} (hmask : mask < 256) :
    Rotation.identity.onMask mask = mask := by
  have hid : ∀ c < 8, Rotation.identity.image c = c := by decide
  apply eq_of_testBit_corners (onMask_lt identity_mem_all mask) hmask
  intro c hc
  have hbit := testBit_onMask identity_mem_all mask hc
  rwa [hid c hc] at hbit

/-! ## Rotations of faces -/

namespace Rotation

theorem edgeJoining?_image {r : Rotation} {c d e : Nat} (h : r.keepsEdge c d = true)
    (he : edgeJoining? c d = some e) :
    edgeJoining? (r.image c) (r.image d) = some (r.onEdge e) := by
  rw [keepsEdge, beq_iff_eq, he] at h
  exact h

variable {r : Rotation} (hr : r ∈ Rotation.all)

include hr

theorem keepsEdge_of_mem_faces {f : Face} (hf : f ∈ faces) :
    r.keepsEdge f.1 f.2.1 = true ∧ r.keepsEdge f.2.1 f.2.2.1 = true ∧
      r.keepsEdge f.2.2.1 f.2.2.2 = true ∧ r.keepsEdge f.2.2.2 f.1 = true :=
  (symmetric_of_mem_all r hr).2.1 f hf

/-- A rotation permutes the faces, up to the corners at which they start. -/
theorem faces_map_onFace_perm : (faces.map fun f => (r.onFace f).fromLeast).Perm faces :=
  (symmetric_of_mem_all r hr).2.2

theorem faceSegments_onFace {f : Face} (hf : f ∈ faces) (mask : CornerMask) :
    faceSegments (r.onMask mask) (r.onFace f) =
      (faceSegments mask f).map (Prod.map r.onEdge r.onEdge) := by
  obtain ⟨p, q, u, v⟩ := f
  obtain ⟨hp, hq, hu, hv⟩ := corners_lt_of_mem_faces _ hf
  obtain ⟨kpq, kqu, kuv, kvp⟩ := keepsEdge_of_mem_faces hr hf
  obtain ⟨pq, qu, uv, vp, hpq, hqu, huv, hvp⟩ := exists_edges_of_mem_faces hf
  rw [onFace, faceSegments_eq_runs _ (edgeJoining?_image kpq hpq) (edgeJoining?_image kqu hqu)
      (edgeJoining?_image kuv huv) (edgeJoining?_image kvp hvp),
    testBit_onMask hr mask hp, testBit_onMask hr mask hq, testBit_onMask hr mask hu,
    testBit_onMask hr mask hv, ← runs_map, ← faceSegments_eq_runs mask hpq hqu huv hvp]

theorem segments_onMask_perm (mask : CornerMask) :
    (segments (r.onMask mask)).Perm ((segments mask).map (Prod.map r.onEdge r.onEdge)) := by
  calc
    (segments (r.onMask mask)).Perm
        ((faces.map fun f => (r.onFace f).fromLeast).flatMap (faceSegments (r.onMask mask))) :=
      (faces_map_onFace_perm hr).symm.flatMap_right _
    _ = faces.flatMap fun f => faceSegments (r.onMask mask) (r.onFace f).fromLeast := by
      rw [List.flatMap_map]
    _ |>.Perm (faces.flatMap fun f => faceSegments (r.onMask mask) (r.onFace f)) :=
      List.Perm.flatMap_left _ fun f _ => faceSegments_fromLeast _ _
    _ = (segments mask).map (Prod.map r.onEdge r.onEdge) := by
      rw [segments, List.map_flatMap]
      exact List.flatMap_congr fun f hf => faceSegments_onFace hr hf mask

end Rotation

/-! ## Drawn masks -/

namespace PatchTriangle

def sides (t : PatchTriangle) : List (Nat × Nat) :=
  [(t.a, t.b), (t.b, t.c), (t.c, t.a)]

theorem flatMap_sides_map (f : Nat → Nat) (ts : List PatchTriangle) :
    (ts.map (map f)).flatMap sides = (ts.flatMap sides).map (Prod.map f f) := by
  rw [List.flatMap_map, List.map_flatMap]
  rfl

end PatchTriangle

/-- The least mask of each class under rotation. -/
def leastMasks : List CornerMask :=
  [0, 1, 3, 6, 7, 15, 22, 23, 24, 25, 27, 29, 30, 31, 60, 61, 63, 105, 107, 111, 126, 127, 255]

theorem leastImage_mem_leastMasks : ∀ mask < 256, leastImage mask ∈ leastMasks := by
  decide +kernel

/-- In a patch that is drawn, what is left of the sides are the segments. -/
theorem sides_draw_perm : ∀ mask ∈ leastMasks,
    let pairs := (draw mask).flatMap PatchTriangle.sides ++ (segments mask).map Prod.swap
    pairs.Perm (pairs.map Prod.swap) := by
  decide +kernel

theorem pairSum_sides_draw {mask : CornerMask} (h : mask ∈ leastMasks) {w : Nat → Nat → ℤ}
    (hw : Alternating w) :
    pairSum w ((draw mask).flatMap PatchTriangle.sides) = pairSum w (segments mask) := by
  have hsum := Balanced.of_perm_swap (sides_draw_perm mask h) w hw
  rw [pairSum_append, pairSum_map_swap hw] at hsum
  omega

/-! ## All masks -/

theorem foldl_min_onMask (mask : CornerMask) (rs : List Rotation) (least : CornerMask) :
    rs.foldl (fun least r => min least (r.onMask mask)) least = least ∨
      ∃ r ∈ rs, rs.foldl (fun least r => min least (r.onMask mask)) least = r.onMask mask := by
  induction rs generalizing least with
  | nil => exact .inl rfl
  | cons r rs ih =>
      rw [List.foldl_cons]
      rcases ih (min least (r.onMask mask)) with h | ⟨s, hs, h⟩
      · rw [h]
        rcases Nat.le_total least (r.onMask mask) with hle | hle
        · exact .inl (Nat.min_eq_left hle)
        · exact .inr ⟨r, List.mem_cons_self, Nat.min_eq_right hle⟩
      · exact .inr ⟨s, List.mem_cons_of_mem _ hs, h⟩

theorem foldl_min_le (mask : CornerMask) (rs : List Rotation) (least : CornerMask) :
    rs.foldl (fun least r => min least (r.onMask mask)) least ≤ least := by
  induction rs generalizing least with
  | nil => exact Nat.le_refl _
  | cons r rs ih => exact (ih _).trans (Nat.min_le_left _ _)

theorem leastImage_le (mask : CornerMask) : leastImage mask ≤ mask :=
  foldl_min_le mask Rotation.all mask

/-- Every mask is a turned copy of the least mask of its class. -/
theorem exists_onMask_leastImage_eq {mask : CornerMask} (hmask : mask < 256) :
    ∃ r ∈ Rotation.all, r.onMask (leastImage mask) = mask := by
  rcases foldl_min_onMask mask Rotation.all mask with h | ⟨s, hs, h⟩
  · refine ⟨Rotation.identity, Rotation.identity_mem_all, ?_⟩
    rw [leastImage, h]
    exact Rotation.identity_onMask hmask
  · obtain ⟨r, hr, hrs⟩ := Rotation.exists_inverse hs
    refine ⟨r, hr, ?_⟩
    rw [leastImage, h]
    exact Rotation.onMask_onMask hs hr hrs hmask

/-- A patch is a turned copy of the one that is drawn for its class. -/
theorem exists_patch_eq_map_draw {mask : CornerMask} (hmask : mask < 256) :
    ∃ r ∈ Rotation.all, r.onMask (leastImage mask) = mask ∧
      patch mask = (draw (leastImage mask)).map (PatchTriangle.map r.onEdge) := by
  simp only [patch]
  split
  · rename_i r hfind
    exact ⟨r, List.mem_of_find?_eq_some hfind, by simpa using List.find?_some hfind, rfl⟩
  · rename_i hfind
    obtain ⟨r, hr, hturn⟩ := exists_onMask_leastImage_eq hmask
    have hnone := List.find?_eq_none.mp hfind r hr
    simp [hturn] at hnone

/-- What is left of the sides of a patch are the segments of its mask. -/
theorem pairSum_sides_patch {mask : CornerMask} (hmask : mask < 256) {w : Nat → Nat → ℤ}
    (hw : Alternating w) :
    pairSum w ((patch mask).flatMap PatchTriangle.sides) = pairSum w (segments mask) := by
  obtain ⟨r, hr, hturn, hpatch⟩ := exists_patch_eq_map_draw hmask
  rw [hpatch, PatchTriangle.flatMap_sides_map, pairSum_map,
    pairSum_sides_draw (leastImage_mem_leastMasks mask hmask) (hw.comp r.onEdge), ← pairSum_map,
    ← pairSum_perm w (Rotation.segments_onMask_perm hr (leastImage mask)), hturn]

theorem get_standard {mask : CornerMask} (hmask : mask < 256) :
    Table.standard.get mask = patch mask := by
  simp [Table.get, Table.standard, Table.computed, List.getElem?_range hmask]

end SolidSurface.CubeCase

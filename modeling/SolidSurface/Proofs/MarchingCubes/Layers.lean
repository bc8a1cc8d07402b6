import Mathlib.Data.Nat.Find
import SolidSurface.Extraction.MarchingCubes
import SolidSurface.Proofs.Lattice.Listing

/-! # Marching cubes layer by layer

Every read of a sample is in range, so a layer adds the surface of the cubes right below it and the
whole run that of the lattice. There are three ways for a run to stop earlier: there is no room for
the samples of a layer, one of its samples on the border is inside, or the triangles up to it are
too many for a mesh. The first layer with such an obstacle decides.
-/

namespace SolidSurface

open CubeCase (findMask maskOf)

theorem CubeCase.findMask_eq_ok {ε : Type} {find : Nat → Except ε Bool} {inside : Nat → Bool}
    (h : ∀ c < 8, find c = .ok (inside c)) : findMask find = .ok (maskOf inside) := by
  refine foldlM_eq_ok (fun c hc mask => ?_) 0
  rw [h c (List.mem_range.mp hc)]
  rfl

namespace MarchingCubes

/-! ## Reading the samples -/

variable {n : Vec3 Nat} {inside : LatticePoint → Bool} {x y z : Nat}

theorem readMask_sampleLayer (hx : x + 1 < n.x) (hy : y + 1 < n.y) :
    readMask n (sampleLayer n inside z) (sampleLayer n inside (z + 1)) x y =
      .ok (cubeMask inside ⟨x, y, z⟩) := by
  refine CubeCase.findMask_eq_ok fun c hc => readAt_eq_ok ?_
  have hlayer : (if c / 4 = 0 then sampleLayer n inside z else sampleLayer n inside (z + 1)) =
      sampleLayer n inside (cubeCorner ⟨x, y, z⟩ c).z := by
    by_cases hbottom : c / 4 = 0
    · rw [if_pos hbottom, cubeCorner, hbottom]
      rfl
    · have htop : c / 4 = 1 := by omega
      rw [if_neg hbottom, cubeCorner, htop]
  rw [hlayer]
  exact getElem?_sampleLayer (p := cubeCorner ⟨x, y, z⟩ c)
    (by simp only [cubeCorner]; omega) (by simp only [cubeCorner]; omega)

theorem layerSurface_sampleLayer :
    layerSurface n z (sampleLayer n inside z) (sampleLayer n inside (z + 1)) =
      .ok ((List.range (n.y - 1)).flatMap fun y =>
        (List.range (n.x - 1)).flatMap fun x => cubeSurface inside ⟨x, y, z⟩) := by
  have hrow : ∀ y ∈ List.range (n.y - 1),
      ((List.range (n.x - 1)).mapM fun x => do
        let mask ← readMask n (sampleLayer n inside z) (sampleLayer n inside (z + 1)) x y
        return (CubeCase.Table.standard.get mask).map (placeTriangle ⟨x, y, z⟩)) =
      .ok ((List.range (n.x - 1)).map fun x => cubeSurface inside ⟨x, y, z⟩) := by
    intro y hy
    refine mapM_eq_ok fun x hx => ?_
    rw [List.mem_range] at hx hy
    rw [readMask_sampleLayer (Nat.add_lt_of_lt_sub hx) (Nat.add_lt_of_lt_sub hy)]
    rfl
  rw [layerSurface, mapM_eq_ok hrow]
  refine congrArg Except.ok ?_
  rw [List.flatten_flatten, List.map_map]
  rfl

/-- One more layer of samples adds the cubes below it. -/
theorem latticeSurface_succ (z : Nat) :
    latticeSurface { n with z := z + 1 + 1 } inside =
      latticeSurface { n with z := z + 1 } inside ++ (List.range (n.y - 1)).flatMap fun y =>
        (List.range (n.x - 1)).flatMap fun x => cubeSurface inside ⟨x, y, z⟩ := by
  simp only [latticeSurface, LatticePoint.flatMapBelow, Vec3.map, Nat.add_sub_cancel,
    List.range_succ, List.flatMap_append, List.flatMap_cons, List.flatMap_nil, List.append_nil]

theorem length_latticeSurface_mono {z' : Nat} (h : z ≤ z') :
    (latticeSurface { n with z := z } inside).length ≤
      (latticeSurface { n with z := z' } inside).length := by
  induction h with
  | refl => exact Nat.le_refl _
  | @step m _ ih =>
      refine Nat.le_trans ih ?_
      cases m with
      | zero => exact Nat.le_refl _
      | succ m =>
          rw [latticeSurface_succ, List.length_append]
          exact Nat.le_add_right _ _

end MarchingCubes

/-! ## One layer -/

section Layers

variable {α κ : Type} [Scalar α] [BEq κ] [Hashable κ]

/-- The triangles of the cubes below layer `z`. -/
def trianglesBelow (s : Solid α) (g : Grid α) (z : Nat) : List (Triangle α) :=
  (MarchingCubes.latticeSurface { g.dimensions with z := z } fun p =>
    s.contains (g.position p)).map (Triangle.map g.halfCellPosition)

/-- A sample of layer `z` is inside and on the border. -/
def LeaksAt (s : Solid α) (g : Grid α) (z : Nat) : Prop :=
  ∃ p : LatticePoint, (p.x < g.dimensions.x ∧ p.y < g.dimensions.y ∧ p.z = z) ∧
    p.isBorder g.dimensions = true ∧ s.contains (g.position p) = true

/-- There is room for the samples of a layer, if there are layers. -/
def Grid.SamplesFit (g : Grid α) : Prop :=
  0 < g.dimensions.z → VectorFits (g.dimensions.x * g.dimensions.y) 1

instance (g : Grid α) : Decidable g.SamplesFit :=
  inferInstanceAs (Decidable (_ → _))

variable {s : Solid α} {g : Grid α} {z : Nat}

theorem length_trianglesBelow (z : Nat) : (trianglesBelow s g z).length =
    (MarchingCubes.latticeSurface { g.dimensions with z := z } fun p =>
      s.contains (g.position p)).length :=
  List.length_map ..

theorem length_trianglesBelow_mono {z' : Nat} (h : z ≤ z') :
    (trianglesBelow s g z).length ≤ (trianglesBelow s g z').length := by
  simp only [length_trianglesBelow]
  exact MarchingCubes.length_latticeSurface_mono h

theorem trianglesBelow_succ (z : Nat) : trianglesBelow s g (z + 1 + 1) =
    trianglesBelow s g (z + 1) ++ ((List.range (g.dimensions.y - 1)).flatMap fun y =>
      (List.range (g.dimensions.x - 1)).flatMap fun x =>
        MarchingCubes.cubeSurface (fun p => s.contains (g.position p)) ⟨x, y, z⟩).map
          (Triangle.map g.halfCellPosition) := by
  rw [trianglesBelow, MarchingCubes.latticeSurface_succ, List.map_append]
  rfl

/-- The samples of the last of the first `z` layers. -/
def lastSamples? (s : Solid α) (g : Grid α) : Nat → Option (Array Bool)
  | 0 => none
  | z + 1 => some (sampleLayer g.dimensions (fun p => s.contains (g.position p)) z)

/-- The surface up to the first `z` layers. -/
def surfaceBelow (s : Solid α) (g : Grid α) (z : Nat)
    (h : (trianglesBelow s g z).length ≤ handleCount) : SurfaceBelow α κ :=
  ⟨lastSamples? s g z, .ofList (trianglesBelow s g z) h⟩

section Step

variable (hfits : VectorFits (g.dimensions.x * g.dimensions.y) 1)

include hfits

theorem addLayer_eq_error_of_leaksAt (b : SurfaceBelow α κ) (hleak : LeaksAt s g z) :
    b.addLayer s g z = .error .insideOnBorder := by
  rw [SurfaceBelow.addLayer, if_neg (not_not_intro hfits)]
  simp only [if_pos (layerLeaks_sampleLayer_iff.mpr hleak)]
  rfl

/-- Without a leak a layer is added as long as the triangles below it are not too many. -/
theorem addLayer_surfaceBelow (h : (trianglesBelow s g z).length ≤ handleCount)
    (hclear : ¬LeaksAt s g z) :
    (surfaceBelow s g z h : SurfaceBelow α κ).addLayer s g z =
      if hroom : (trianglesBelow s g (z + 1)).length < handleCount then
        .ok (surfaceBelow s g (z + 1) (Nat.le_of_lt hroom))
      else .error (.mesh .tooManySlots) := by
  rw [SurfaceBelow.addLayer, if_neg (not_not_intro hfits)]
  simp only [if_neg (mt layerLeaks_sampleLayer_iff.mp hclear), surfaceBelow]
  cases z with
  | zero => rfl
  | succ z =>
      simp only [lastSamples?, Nat.add_sub_cancel, MarchingCubes.layerSurface_sampleLayer,
        Except.mapError, bind, Except.bind]
      by_cases hroom : (trianglesBelow s g (z + 1 + 1)).length < handleCount
      · have hadded := trianglesBelow_succ (s := s) (g := g) z ▸ hroom
        rw [dif_pos hroom, Mesh.extend_ofList_eq_ok _ _ h hadded]
        simp only [trianglesBelow_succ]
        rfl
      · have hadded := trianglesBelow_succ (s := s) (g := g) z ▸ Nat.le_of_not_lt hroom
        rw [dif_neg hroom, Mesh.extend_ofList_eq_error _ _ h hadded]

end Step

/-! ## The whole run -/

/-- A layer that stops no run. -/
def Passes (s : Solid α) (g : Grid α) (z : Nat) : Prop :=
  ¬LeaksAt s g z ∧ (trianglesBelow s g (z + 1)).length < handleCount

theorem length_trianglesBelow_of_passes (h : ∀ y < z, Passes s g y) :
    (trianglesBelow s g z).length < handleCount := by
  cases z with
  | zero => exact (by decide : 0 < handleCount)
  | succ z => exact (h z (Nat.lt_succ_self z)).2

theorem foldlM_addLayer (hfits : g.SamplesFit) (hz : z ≤ g.dimensions.z)
    (h : ∀ y < z, Passes s g y) :
    (List.range z).foldlM (SurfaceBelow.addLayer s g) (⟨none, .empty⟩ : SurfaceBelow α κ) =
      .ok (surfaceBelow s g z (Nat.le_of_lt (length_trianglesBelow_of_passes h))) := by
  induction z with
  | zero => rfl
  | succ z ih =>
      have hbefore : ∀ y < z, Passes s g y := fun y hy => h y (Nat.lt_succ_of_lt hy)
      obtain ⟨hclear, hroom⟩ := h z (Nat.lt_succ_self z)
      rw [List.range_succ, List.foldlM_append, ih (Nat.le_of_succ_le hz) hbefore]
      simp only [bind, Except.bind, List.foldlM_cons, List.foldlM_nil,
        addLayer_surfaceBelow (hfits (Nat.zero_lt_of_lt hz)) _ hclear, dif_pos hroom]
      rfl

/-- A run ends at the first layer that stops it. -/
theorem midpointSurface_of_not_passes (hfits : g.SamplesFit) (hz : z < g.dimensions.z)
    (h : ∀ y < z, Passes s g y) :
    (LeaksAt s g z → (midpointSurface s g : Except _ (Mesh α κ)) = .error .insideOnBorder) ∧
      (¬LeaksAt s g z → handleCount ≤ (trianglesBelow s g (z + 1)).length →
        (midpointSurface s g : Except _ (Mesh α κ)) = .error (.mesh .tooManySlots)) := by
  have hlayer := hfits (Nat.zero_lt_of_lt hz)
  have hrun := foldlM_addLayer (κ := κ) hfits (Nat.le_of_lt hz) h
  obtain ⟨k, hk⟩ := Nat.exists_eq_add_of_lt hz
  rw [midpointSurface, hk, Nat.add_assoc, List.range_add, List.range_succ_eq_map, List.map_cons,
    List.foldlM_append, hrun]
  simp only [bind, Except.bind, List.foldlM_cons, Nat.add_zero]
  constructor
  · intro hleak
    rw [addLayer_eq_error_of_leaksAt hlayer _ hleak]
  · intro hclear hmany
    rw [addLayer_surfaceBelow hlayer _ hclear, dif_neg (Nat.not_lt.mpr hmany)]

/-- With room for the samples of a layer a run has three outcomes. -/
theorem midpointSurface_cases (hfits : g.SamplesFit) :
    ((∀ z < g.dimensions.z, ¬LeaksAt s g z) ∧
      ∃ h : (trianglesBelow s g g.dimensions.z).length < handleCount,
        (midpointSurface s g : Except _ (Mesh α κ)) = .ok (.ofList _ (Nat.le_of_lt h))) ∨
    (∃ z < g.dimensions.z, (∀ y < z, ¬LeaksAt s g y) ∧ LeaksAt s g z ∧
      (trianglesBelow s g z).length < handleCount ∧
        (midpointSurface s g : Except _ (Mesh α κ)) = .error .insideOnBorder) ∨
    ∃ z < g.dimensions.z, (∀ y ≤ z, ¬LeaksAt s g y) ∧
      handleCount ≤ (trianglesBelow s g (z + 1)).length ∧
        (midpointSurface s g : Except _ (Mesh α κ)) = .error (.mesh .tooManySlots) := by
  classical
  by_cases hall : ∀ z < g.dimensions.z, Passes s g z
  · refine .inl ⟨fun z hz => (hall z hz).1, length_trianglesBelow_of_passes hall, ?_⟩
    rw [midpointSurface, foldlM_addLayer hfits (Nat.le_refl _) hall]
    rfl
  · simp only [not_forall] at hall
    -- The first layer that stops the run decides.
    obtain ⟨hz, hstops⟩ := Nat.find_spec hall
    have hbefore : ∀ y < Nat.find hall, Passes s g y := by
      intro y hy
      by_contra hy'
      exact Nat.find_min hall hy ⟨Nat.lt_trans hy hz, hy'⟩
    obtain ⟨hleaking, hfull⟩ := midpointSurface_of_not_passes (κ := κ) hfits hz hbefore
    by_cases hleak : LeaksAt s g (Nat.find hall)
    · exact .inr (.inl ⟨_, hz, fun y hy => (hbefore y hy).1, hleak,
        length_trianglesBelow_of_passes hbefore, hleaking hleak⟩)
    · have hmany : handleCount ≤ (trianglesBelow s g (Nat.find hall + 1)).length :=
        Nat.le_of_not_lt fun hroom => hstops ⟨hleak, hroom⟩
      refine .inr (.inr ⟨_, hz, fun y hy => ?_, hmany, hfull hleak hmany⟩)
      rcases Nat.lt_or_eq_of_le hy with hlt | rfl
      · exact (hbefore y hlt).1
      · exact hleak

theorem midpointSurface_of_not_samplesFit (hfits : ¬g.SamplesFit) :
    (midpointSurface s g : Except _ (Mesh α κ)) = .error (.samplerStopped 0) := by
  obtain ⟨hz, hlayer⟩ := Classical.not_imp.mp hfits
  obtain ⟨z, hz⟩ := Nat.exists_eq_succ_of_ne_zero (Nat.ne_of_gt hz)
  rw [midpointSurface, hz, List.range_succ_eq_map, List.foldlM_cons, SurfaceBelow.addLayer,
    if_pos hlayer]
  rfl

/-! ## What a run gives -/

theorem contains_eq_false_of_not_leaksAt (h : ∀ z < g.dimensions.z, ¬LeaksAt s g z)
    (p : LatticePoint) (hp : p.Below g.dimensions) (hborder : p.isBorder g.dimensions = true) :
    s.contains (g.position p) = false := by
  rw [← Bool.not_eq_true]
  exact fun hin => h p.z hp.2.2 ⟨p, ⟨hp.1, hp.2.1, rfl⟩, hborder, hin⟩

/-- What a surface on a grid comes to: its mesh, unless there is no room for the samples of a layer
or there are too many triangles. -/
def Grid.meshOf (g : Grid α) (ts : List (Triangle α)) : Except (ExtractionError α) (Mesh α κ) :=
  if g.SamplesFit then (Mesh.ofTriangles ts).mapError .mesh else .error (.samplerStopped 0)

section

omit [Scalar α]

theorem Grid.exists_meshOf_eq_ok (g : Grid α) (ts : List (Triangle α)) (hfits : g.SamplesFit)
    (hroom : ts.length < handleCount) : ∃ m : Mesh α κ, g.meshOf ts = .ok m :=
  ⟨_, by rw [meshOf, if_pos hfits, Mesh.ofTriangles_eq_ok hroom]; rfl⟩

theorem Grid.triangles_of_meshOf {ts : List (Triangle α)} {m : Mesh α κ}
    (h : g.meshOf ts = .ok m) : m.triangles = ts := by
  rw [meshOf] at h
  split at h
  · exact Mesh.triangles_of_ofTriangles (eq_ok_of_mapError_eq_ok h)
  · cases h

end

/-- With no sample inside on the border there is the surface of the answers at the samples. -/
theorem midpointSurface_eq_meshOf
    (hborder : ∀ p : LatticePoint, p.Below g.dimensions → p.isBorder g.dimensions = true →
      s.contains (g.position p) = false) :
    (midpointSurface s g : Except _ (Mesh α κ)) = g.meshOf
      ((MarchingCubes.latticeSurface g.dimensions fun p => s.contains (g.position p)).map
        (Triangle.map g.halfCellPosition)) := by
  change _ = g.meshOf (trianglesBelow s g g.dimensions.z)
  rw [Grid.meshOf]
  split
  · rename_i hfits
    rcases midpointSurface_cases (κ := κ) (s := s) hfits with
      ⟨-, hroom, h⟩ | ⟨z, hz, -, hleak, -⟩ | ⟨z, hz, -, hmany, h⟩
    · rw [h, Mesh.ofTriangles_eq_ok hroom]
      rfl
    · obtain ⟨p, ⟨hx, hy, rfl⟩, hb, hin⟩ := hleak
      rw [hborder p ⟨hx, hy, hz⟩ hb] at hin
      cases hin
    · rw [h, Mesh.ofTriangles_eq_error (Nat.le_trans hmany (length_trianglesBelow_mono hz))]
      rfl
  · rename_i hfits
    exact midpointSurface_of_not_samplesFit hfits

/-- There is a surface only if no sample on the border is inside. -/
theorem of_midpointSurface_eq_ok {m : Mesh α κ} (h : midpointSurface s g = .ok m) :
    (∀ p : LatticePoint, p.Below g.dimensions → p.isBorder g.dimensions = true →
      s.contains (g.position p) = false) ∧
    m.triangles = (MarchingCubes.latticeSurface g.dimensions fun p =>
      s.contains (g.position p)).map (Triangle.map g.halfCellPosition) := by
  by_cases hfits : g.SamplesFit
  · rcases midpointSurface_cases (κ := κ) (s := s) hfits with
      ⟨hclear, hroom, hm⟩ | ⟨_, _, _, _, _, hm⟩ | ⟨_, _, _, _, hm⟩ <;> rw [h] at hm <;> cases hm
    exact ⟨contains_eq_false_of_not_leaksAt hclear, Mesh.triangles_ofList _ _⟩
  · rw [midpointSurface_of_not_samplesFit hfits] at h
    cases h

end Layers

end SolidSurface

import SolidSurface.Proofs.Scalar.Fraction
import SolidSurface.Proofs.DualContour.Streaming
import SolidSurface.Proofs.Lattice.Sum
import SolidSurface.Proofs.Mesh.Winding

/-! # Dual contouring closes its surface

The two triangles of a crossed edge run around the four cubes that share it, so each side joins two
cubes with a common face, and every face is passed once for each of its crossed edges. Walking
around a face the inside is left as often as it is entered: what passes the faces of one cube adds
up to what the next cubes along the axes take over.
-/

namespace SolidSurface

namespace DualContour

open Finset

variable {γ ν : Type}

/-! ## The triangles of one edge -/

def facetSides : Facet ν → List (ν × ν)
  | (a, b, c) => [(a, b), (b, c), (c, a)]

/-- The diagonal that the two triangles share does not count. -/
theorem pairSum_ringFacets {w : ν → ν → ℤ} (hw : Alternating w) (a b c d : ν) :
    pairSum w ((ringFacets [a, b, c, d]).flatMap facetSides) = w a b + w b c + w c d + w d a := by
  simp only [ringFacets, facetSides, List.flatMap_cons, List.flatMap_nil, List.append_nil,
    pairSum_append, pairSum_cons, pairSum_nil]
  rw [hw a c]
  ring

theorem pairSum_ringFacets_reverse {w : ν → ν → ℤ} (hw : Alternating w) (a b c d : ν) :
    pairSum w ((ringFacets [a, b, c, d].reverse).flatMap facetSides) =
      -(w a b + w b c + w c d + w d a) := by
  simp only [List.reverse_cons, List.reverse_nil, List.nil_append, List.cons_append]
  rw [pairSum_ringFacets hw, hw c d, hw b c, hw a b, hw d a]
  ring

namespace LatticeField

variable (F : LatticeField γ ν)

/-- A weight on vertices, carried over to the cubes. -/
def cubeWeight (w : ν → ν → ℤ) (c d : LatticePoint) : ℤ :=
  match F.vertex? c, F.vertex? d with
  | some u, some v => w u v
  | _, _ => 0

variable {F}

theorem cubeWeight_alternating {w : ν → ν → ℤ} (hw : Alternating w) :
    Alternating (F.cubeWeight w) := by
  intro c d
  simp only [cubeWeight]
  cases F.vertex? c with
  | none => cases F.vertex? d <;> rfl
  | some u =>
      cases F.vertex? d with
      | none => rfl
      | some v => exact hw u v

theorem cubeWeight_of_vertex? {w : ν → ν → ℤ} {c d : LatticePoint} {u v : ν}
    (hc : F.vertex? c = some u) (hd : F.vertex? d = some v) : F.cubeWeight w c d = w u v := by
  simp only [cubeWeight, hc, hd]

variable (F)

/-- One for a sample inside, zero for one outside. -/
def indicator (p : LatticePoint) : ℤ :=
  if F.inside p then 1 else 0

/-- Which way an edge crosses the surface, zero if it does not. -/
def sign (a : Axis) (low : LatticePoint) : ℤ :=
  F.indicator low - F.indicator (stepForward low a)

/-- What the step from a cube to the next one weighs. -/
def stepWeight (w : ν → ν → ℤ) (a : Axis) (c : LatticePoint) : ℤ :=
  F.cubeWeight w c (stepForward c a)

/-- What the way around an edge weighs, from cube to cube. -/
def ringWeight (w : ν → ν → ℤ) (q : LatticePoint) : Axis → ℤ
  | .x => F.stepWeight w .y q + F.stepWeight w .z (stepForward q .y) -
      F.stepWeight w .y (stepForward q .z) - F.stepWeight w .z q
  | .y => F.stepWeight w .z q + F.stepWeight w .x (stepForward q .z) -
      F.stepWeight w .z (stepForward q .x) - F.stepWeight w .x q
  | .z => F.stepWeight w .x q + F.stepWeight w .y (stepForward q .x) -
      F.stepWeight w .x (stepForward q .y) - F.stepWeight w .y q

variable {F} {w : ν → ν → ℤ}

/-- Two of the four steps around an edge go backwards. -/
theorem exists_cubeRing_ringWeight (hw : Alternating w) (q : LatticePoint) (a : Axis) :
    ∃ c₁ c₂ c₃ c₄, cubeRing q a = [c₁, c₂, c₃, c₄] ∧
      F.ringWeight w q a = F.cubeWeight w c₁ c₂ + F.cubeWeight w c₂ c₃ + F.cubeWeight w c₃ c₄ +
        F.cubeWeight w c₄ c₁ := by
  have hback := cubeWeight_alternating (F := F) hw
  cases a with
  | x =>
      refine ⟨q, stepForward q .y, across q .x, stepForward q .z, rfl, ?_⟩
      rw [hback q (stepForward q .z), hback (stepForward q .z) (across q .x)]
      simp only [ringWeight, stepWeight, across, sub_eq_add_neg]
      rfl
  | y =>
      refine ⟨q, stepForward q .z, across q .y, stepForward q .x, rfl, ?_⟩
      rw [hback q (stepForward q .x), hback (stepForward q .x) (across q .y)]
      simp only [ringWeight, stepWeight, across, sub_eq_add_neg]
      rfl
  | z =>
      refine ⟨q, stepForward q .x, across q .z, stepForward q .y, rfl, ?_⟩
      rw [hback q (stepForward q .y), hback (stepForward q .y) (across q .z)]
      simp only [ringWeight, stepWeight, across, sub_eq_add_neg]
      rfl

theorem sign_of_crossing?_eq_none {a : Axis} {low : LatticePoint}
    (h : F.crossing? a low = none) : F.sign a low = 0 := by
  have hsame : F.inside low = F.inside (stepForward low a) := by
    simpa [crossing?] using h
  rw [sign, indicator, indicator, hsame, sub_self]

theorem sign_of_crossing?_eq_some {a : Axis} {low : LatticePoint} {g : γ}
    (h : F.crossing? a low = some g) : F.sign a low = if F.inside low then 1 else -1 := by
  have hdiffer : F.inside low ≠ F.inside (stepForward low a) := by
    intro hsame
    rw [crossing?_eq_none hsame] at h
    cases h
  rw [sign, indicator, indicator]
  cases hlow : F.inside low <;> cases hhigh : F.inside (stepForward low a) <;>
    first | exact absurd (hlow.trans hhigh.symm) hdiffer | rfl

/-- An edge contributes the way around it, in the direction in which it crosses the surface. -/
theorem pairSum_facets (hw : Alternating w) (q : LatticePoint) (a : Axis) :
    pairSum w ((F.facets a (across q a)).flatMap facetSides) =
      F.sign a (across q a) * F.ringWeight w q a := by
  cases hg : F.crossing? a (across q a) with
  | none =>
      rw [facets_eq_nil hg, sign_of_crossing?_eq_none hg, zero_mul]
      rfl
  | some g =>
      obtain ⟨c₁, c₂, c₃, c₄, hring, hweight⟩ := exists_cubeRing_ringWeight (F := F) hw q a
      have hcross : F.crossing? a (across q a) ≠ none := by
        rw [hg]
        exact Option.some_ne_none g
      obtain ⟨v₁, v₂, v₃, v₄, h₁, h₂, h₃, h₄, hfound⟩ := exists_vertices_of_crossed hcross hring
      rw [hweight, cubeWeight_of_vertex? h₁ h₂, cubeWeight_of_vertex? h₂ h₃,
        cubeWeight_of_vertex? h₃ h₄, cubeWeight_of_vertex? h₄ h₁, sign_of_crossing?_eq_some hg]
      simp only [facets, hg, hfound]
      by_cases hin : F.inside (across q a) = true
      · rw [if_pos hin, if_pos hin, pairSum_ringFacets hw, one_mul]
      · rw [if_neg hin, if_neg hin, pairSum_ringFacets_reverse hw, neg_one_mul]

/-! ## The faces of one cube -/

variable (F) (w) in
/-- What the edges of the face below `q` along an axis weigh, each with the step that passes it. -/
def faceFlux : Axis → LatticePoint → ℤ
  | .x, q => F.sign .y (stepForward q .z) * F.stepWeight w .z q -
      F.sign .z (stepForward q .y) * F.stepWeight w .y q
  | .y, q => F.sign .z (stepForward q .x) * F.stepWeight w .x q -
      F.sign .x (stepForward q .z) * F.stepWeight w .z q
  | .z, q => F.sign .x (stepForward q .y) * F.stepWeight w .y q -
      F.sign .y (stepForward q .x) * F.stepWeight w .x q

variable (F) (w) in
/-- What is left at the three edges that start across a cube passes on to its neighbours. -/
theorem sum_ringWeight (q : LatticePoint) :
    F.sign .x (across q .x) * F.ringWeight w q .x + F.sign .y (across q .y) * F.ringWeight w q .y +
        F.sign .z (across q .z) * F.ringWeight w q .z =
      (F.faceFlux w .x q - F.faceFlux w .x (stepForward q .x)) +
        (F.faceFlux w .y q - F.faceFlux w .y (stepForward q .y)) +
        (F.faceFlux w .z q - F.faceFlux w .z (stepForward q .z)) := by
  simp only [faceFlux, ringWeight, sign, across, stepForward]
  ring

/-- Nothing passes a face at either end of the lattice. -/
theorem faceFlux_eq_zero (hleaks : F.leaks = false) (a : Axis) (p : LatticePoint)
    (hpos : 0 < (F.dimensions.map (· - 1)).get a)
    (hother : ∀ b, b ≠ a → p.get b < (F.dimensions.map (· - 1)).get b)
    (hend : p.get a = 0 ∨ p.get a = (F.dimensions.map (· - 1)).get a) :
    F.faceFlux w a p = 0 := by
  have hout : ∀ q : LatticePoint, q.get a = p.get a → (∀ b, q.get b ≤ p.get b + 1) →
      F.indicator q = 0 := by
    intro q hqa hq
    rw [indicator, LatticePoint.inside_eq_false_of_face
      (fun _ => LatticePoint.inside_eq_false_of_isBorder hleaks) hother hpos hend hqa hq]
    rfl
  have hsign : ∀ b c, b ≠ a → c ≠ a → b ≠ c → F.sign b (stepForward p c) = 0 := by
    intro b c hb hc hbc
    have hone : ∀ d, (stepForward p c).get d ≤ p.get d + 1 := by
      intro d
      by_cases hd : d = c
      · rw [hd, LatticePoint.get_stepForward_self]
      · rw [LatticePoint.get_stepForward_of_ne p hd]
        omega
    rw [sign, hout (stepForward p c), hout (stepForward (stepForward p c) b), sub_self]
    · rw [LatticePoint.get_stepForward_of_ne _ hb.symm,
        LatticePoint.get_stepForward_of_ne p hc.symm]
    · intro d
      by_cases hd : d = b
      · rw [hd, LatticePoint.get_stepForward_self, LatticePoint.get_stepForward_of_ne p hbc]
      · rw [LatticePoint.get_stepForward_of_ne _ hd]
        exact hone d
    · exact LatticePoint.get_stepForward_of_ne p hc.symm
    · exact hone
  cases a with
  | x =>
      rw [faceFlux, hsign .y .z (by decide) (by decide) (by decide),
        hsign .z .y (by decide) (by decide) (by decide), zero_mul, zero_mul, sub_self]
  | y =>
      rw [faceFlux, hsign .z .x (by decide) (by decide) (by decide),
        hsign .x .z (by decide) (by decide) (by decide), zero_mul, zero_mul, sub_self]
  | z =>
      rw [faceFlux, hsign .x .y (by decide) (by decide) (by decide),
        hsign .y .x (by decide) (by decide) (by decide), zero_mul, zero_mul, sub_self]

/-! ## The whole lattice -/

variable (F) (w) in
/-- What the triangles of an edge weigh. -/
def edgeWeight (a : Axis) (low : LatticePoint) : ℤ :=
  pairSum w ((F.facets a low).flatMap facetSides)

/-- An edge on the border, but for its own axis, has no triangles. -/
theorem edgeWeight_eq_zero (hleaks : F.leaks = false) {a b : Axis} {k : Nat} {low : LatticePoint}
    (hmem : low ∈ layerEdges F.dimensions a k) (hk : k < F.dimensions.z)
    (hz : a = .z → k + 1 < F.dimensions.z) (hb : b ≠ a)
    (hend : low.get b = 0 ∨ low.get b + 1 = F.dimensions.get b) : F.edgeWeight w a low = 0 := by
  have hnone : F.crossing? a low = none := by
    by_contra hcross
    have hgap := get_of_crossing?_ne_none (clearBelow_of_leaks_eq_false hleaks _)
      (stepForward_below_of_mem_layerEdges hmem hk hz) (Nat.lt_succ_self _) hcross hb
    omega
  rw [edgeWeight, facets_eq_nil hnone]
  rfl

variable (F) (w) in
/-- What the edges along an axis weigh that start in layer `k`. -/
def layerWeight (a : Axis) (k : Nat) : ℤ :=
  ∑ y ∈ range (edgeHeight F.dimensions a), ∑ x ∈ range (edgeWidth F.dimensions a),
    F.edgeWeight w a ⟨x, y, k⟩

theorem pairSum_layerFacets (k : Nat) : pairSum w ((F.layerFacets k).flatMap facetSides) =
    F.layerWeight w .x k + F.layerWeight w .y k + F.layerWeight w .z k := by
  have haxis : ∀ a, pairSum w (((layerEdges F.dimensions a k).flatMap (F.facets a)).flatMap
      facetSides) = F.layerWeight w a k := by
    intro a
    rw [List.flatMap_assoc, pairSum_flatMap, layerEdges, List.map_map, sum_map_range, layerWeight,
      ← sum_range_pointAt]
    rfl
  simp only [layerFacets, Axis.all, List.flatMap_cons, List.flatMap_nil, List.append_nil,
    List.flatMap_append, pairSum_append, haxis]
  rw [← add_assoc]

/-- The first and the last layer have no triangles of their own. -/
theorem layerWeight_eq_zero (hleaks : F.leaks = false) {a : Axis} (ha : a ≠ .z) {k : Nat}
    (hk : k < F.dimensions.z) (hend : k = 0 ∨ k + 1 = F.dimensions.z) :
    F.layerWeight w a k = 0 := by
  refine sum_eq_zero fun y hy => sum_eq_zero fun x hx => ?_
  exact edgeWeight_eq_zero hleaks (mem_layerEdges.mpr ⟨mem_range.mp hx, mem_range.mp hy, rfl⟩) hk
    (fun hz => absurd hz ha) ha.symm hend

/-! The edges of a layer start one step further on than the cubes that they lie across. What is
left out and taken in by that step lies on the border. -/

theorem layerWeight_x (hleaks : F.leaks = false) {k : Nat} (hk : k + 1 < F.dimensions.z) :
    F.layerWeight w .x (k + 1) = ∑ y ∈ range (F.dimensions.y - 1),
      ∑ x ∈ range (F.dimensions.x - 1), F.edgeWeight w .x (across ⟨x, y, k⟩ .x) := by
  refine sum_range_eq_sum_succ fun hpos => sum_eq_zero fun x hx => ?_
  exact edgeWeight_eq_zero hleaks (b := .y) (mem_layerEdges.mpr ⟨mem_range.mp hx, hpos, rfl⟩) hk
    (fun hz => absurd hz (by decide)) (by decide) (.inl rfl)

theorem layerWeight_y (hleaks : F.leaks = false) {k : Nat} (hk : k + 1 < F.dimensions.z) :
    F.layerWeight w .y (k + 1) = ∑ y ∈ range (F.dimensions.y - 1),
      ∑ x ∈ range (F.dimensions.x - 1), F.edgeWeight w .y (across ⟨x, y, k⟩ .y) := by
  refine sum_congr rfl fun y hy => sum_range_eq_sum_succ fun hpos => ?_
  exact edgeWeight_eq_zero hleaks (b := .x) (mem_layerEdges.mpr ⟨hpos, mem_range.mp hy, rfl⟩) hk
    (fun hz => absurd hz (by decide)) (by decide) (.inl rfl)

theorem layerWeight_z (hleaks : F.leaks = false) {k : Nat} (hk : k + 1 < F.dimensions.z) :
    F.layerWeight w .z k = ∑ y ∈ range (F.dimensions.y - 1),
      ∑ x ∈ range (F.dimensions.x - 1), F.edgeWeight w .z (across ⟨x, y, k⟩ .z) := by
  have hrow : ∀ y, y < F.dimensions.y → ∑ x ∈ range F.dimensions.x, F.edgeWeight w .z ⟨x, y, k⟩ =
      ∑ x ∈ range (F.dimensions.x - 1), F.edgeWeight w .z ⟨x + 1, y, k⟩ := by
    refine fun y hy => sum_range_eq_sum_succ fun hpos => ?_
    exact edgeWeight_eq_zero hleaks (b := .x) (mem_layerEdges.mpr ⟨hpos, hy, rfl⟩)
      (Nat.lt_of_succ_lt hk) (fun _ => hk) (by decide) (.inl rfl)
  rw [layerWeight]
  refine (sum_range_eq_sum_succ fun hpos => sum_eq_zero fun x hx => ?_).trans ?_
  · exact edgeWeight_eq_zero hleaks (b := .y) (mem_layerEdges.mpr ⟨mem_range.mp hx, hpos, rfl⟩)
      (Nat.lt_of_succ_lt hk) (fun _ => hk) (by decide) (.inl rfl)
  · refine sum_congr rfl fun y hy => hrow (y + 1) ?_
    exact Nat.add_lt_of_lt_sub (mem_range.mp hy)

theorem sum_layerWeight (hleaks : F.leaks = false) (a : Axis) :
    ∑ k ∈ range (F.dimensions.z - 1), F.layerWeight w a k =
      latticeSum (F.dimensions.map (· - 1)) fun q => F.edgeWeight w a (across q a) := by
  have hnext : ∀ k ∈ range (F.dimensions.z - 1), k + 1 < F.dimensions.z :=
    fun k hk => Nat.add_lt_of_lt_sub (mem_range.mp hk)
  have hends : ∀ a, a ≠ Axis.z → 0 < F.dimensions.z - 1 →
      F.layerWeight w a 0 = 0 ∧ F.layerWeight w a (F.dimensions.z - 1) = 0 := fun a ha hpos =>
    ⟨layerWeight_eq_zero hleaks ha (by omega) (.inl rfl),
      layerWeight_eq_zero hleaks ha (by omega) (.inr (by omega))⟩
  cases a with
  | x =>
      rw [sum_range_eq_sum_shift (hends .x (by decide))]
      exact sum_congr rfl fun k hk => layerWeight_x hleaks (hnext k hk)
  | y =>
      rw [sum_range_eq_sum_shift (hends .y (by decide))]
      exact sum_congr rfl fun k hk => layerWeight_y hleaks (hnext k hk)
  | z => exact sum_congr rfl fun k hk => layerWeight_z hleaks (hnext k hk)

/-- The surface of a lattice is closed and coherently wound. -/
theorem balanced_facetsBelow (hleaks : F.leaks = false) :
    Balanced ((F.facetsBelow (F.dimensions.z - 1)).flatMap facetSides) := by
  intro w hw
  calc pairSum w ((F.facetsBelow (F.dimensions.z - 1)).flatMap facetSides)
      = ∑ k ∈ range (F.dimensions.z - 1), pairSum w ((F.layerFacets k).flatMap facetSides) := by
        rw [facetsBelow, List.flatMap_assoc, pairSum_flatMap, sum_map_range]
    _ = latticeSum (F.dimensions.map (· - 1)) fun q =>
          F.edgeWeight w .x (across q .x) + F.edgeWeight w .y (across q .y) +
            F.edgeWeight w .z (across q .z) := by
        simp only [pairSum_layerFacets, sum_add_distrib, sum_layerWeight hleaks, latticeSum_add]
    _ = latticeSum (F.dimensions.map (· - 1)) fun q =>
          (F.faceFlux w .x q - F.faceFlux w .x (stepForward q .x)) +
            (F.faceFlux w .y q - F.faceFlux w .y (stepForward q .y)) +
            (F.faceFlux w .z q - F.faceFlux w .z (stepForward q .z)) := by
        refine latticeSum_congr fun q _ => ?_
        rw [edgeWeight, edgeWeight, edgeWeight, pairSum_facets hw, pairSum_facets hw,
          pairSum_facets hw, sum_ringWeight]
    _ = 0 := latticeSum_flux_eq_zero (faceFlux_eq_zero hleaks)

end LatticeField

end DualContour

/-! ## The surface in space -/

open DualContour

theorem allSides_map_facets {α : Type} (facets : List (Facet (Point α))) :
    Triangle.allSides (facets.map fun (a, b, c) => ⟨a, b, c⟩) = facets.flatMap facetSides := by
  rw [Triangle.allSides, List.flatMap_map]
  rfl

variable {α κ : Type} [Scalar α] [BEq κ] [Hashable κ]

/-- With room for its layers and no sample on the border of the grid inside, a sweep ends with the
triangles of the whole lattice, of which a mesh is made. -/
theorem dualContourUsing_eq {e : SurfaceEstimator α} {c : DualContourSettings α} {g : Grid α}
    (hcheck : c.check = .ok ()) (hg : Grid.ofBounds e.solid.bounds c.spacing = .ok g) :
    (dualContourUsing e c : Except _ (Mesh α κ)) =
      if ¬LayersFit g.dimensions then .error .capacityOverflow
      else if (field e g c.regularization c.clip).leaks then .error .insideOnBorder
      else (Mesh.ofTriangles (((field e g c.regularization c.clip).facetsBelow
        (g.dimensions.z - 1)).map fun (a, b, c) => ⟨a, b, c⟩)).mapError .mesh := by
  simp only [dualContourUsing, hcheck, hg, bind, Except.bind, sweep_eq_surface,
    LatticeField.surface]
  by_cases hfits : LayersFit g.dimensions
  · rw [if_neg (not_not_intro hfits), if_neg (not_not_intro hfits)]
    by_cases hleaks : (field e g c.regularization c.clip).leaks = true
    · rw [if_pos hleaks, if_pos hleaks]
      rfl
    · rw [if_neg hleaks, if_neg hleaks]
      rfl
  · rw [if_pos hfits, if_pos hfits]
    rfl

/-- What is extracted consists of the triangles of the whole lattice. -/
theorem of_dualContourUsing_eq_ok {e : SurfaceEstimator α} {c : DualContourSettings α}
    {m : Mesh α κ} (h : dualContourUsing e c = .ok m) :
    ∃ g, (field e g c.regularization c.clip).leaks = false ∧
      m.triangles = ((field e g c.regularization c.clip).facetsBelow (g.dimensions.z - 1)).map
        fun (a, b, c) => ⟨a, b, c⟩ := by
  cases hcheck : c.check with
  | error err =>
      simp only [dualContourUsing, hcheck, bind, Except.bind] at h
      cases h
  | ok _ =>
      cases hg : Grid.ofBounds e.solid.bounds c.spacing with
      | error err =>
          simp only [dualContourUsing, hcheck, hg, bind, Except.bind] at h
          cases h
      | ok g =>
          rw [dualContourUsing_eq hcheck hg] at h
          split at h
          · cases h
          · split at h
            · cases h
            · rename_i hleaks
              exact ⟨g, Bool.not_eq_true _ ▸ hleaks,
                Mesh.triangles_of_ofTriangles (eq_ok_of_mapError_eq_ok h)⟩

variable [Keyed α κ]

theorem balanced_dualContourUsing {e : SurfaceEstimator α} {c : DualContourSettings α}
    {m : Mesh α κ} (h : dualContourUsing e c = .ok m) : Balanced m.directedSides := by
  obtain ⟨g, hleaks, htriangles⟩ := of_dualContourUsing_eq_ok h
  rw [Mesh.directedSides, htriangles, allSides_map_facets]
  exact (LatticeField.balanced_facetsBelow hleaks).map _

/-- Dual contouring, with an estimator at hand or with its own, closes its surface and winds it
coherently: as many sides run from one vertex to another as back. -/
theorem dualContour_sideCount_comm [LawfulBEq κ] {e : SurfaceEstimator α}
    {c : DualContourSettings α} {m : Mesh α κ}
    (h : dualContourUsing e c = .ok m ∨ dualContour e.solid c = .ok m) (a b : PointKey κ) :
    m.sideCount a b = m.sideCount b a := by
  apply Mesh.sideCount_eq_of_balanced
  rcases h with h | h
  · exact balanced_dualContourUsing h
  · simp only [dualContour, bind, Except.bind] at h
    split at h
    · cases h
    · split at h
      · cases h
      · exact balanced_dualContourUsing h

/-- Two corners of a square, one of them with the corner above it. -/
def touching : SurfaceEstimator Fraction :=
  ⟨⟨⟨⟨0, 0, 0⟩, ⟨1, 1, 1⟩⟩,
    fun p => decide (p = ⟨0, 0, 0⟩ ∨ p = ⟨1, 1, 0⟩ ∨ p = ⟨1, 1, 1⟩)⟩, 2, 1, []⟩

theorem dualContour_sideCount_comm_touching :
    ∃ m : Mesh Fraction Fraction, dualContourUsing touching ⟨1, 0, 0, true, 0, .standard⟩ = .ok m ∧
      ∀ a b, m.sideCount a b = m.sideCount b a := by
  let g : Grid Fraction := ⟨touching.solid.bounds.size.map (Grid.sampleCount 1),
    touching.solid.bounds.lower - Vec3.repeated 1, 1⟩
  have hcheck : (⟨1, 0, 0, true, 0, .standard⟩ : DualContourSettings Fraction).check = .ok () := by
    decide +kernel
  have hspacing : Scalar.isPositive (1 : Fraction) = true := by decide +kernel
  have hbounds : touching.solid.bounds.isValid = true := by decide +kernel
  have hgrid : Grid.ofBounds touching.solid.bounds 1 = .ok g := by
    simp only [Grid.ofBounds, hspacing, hbounds]
    rfl
  have hleaks : (field touching g 0 true).leaks = false := by decide +kernel
  have hfew : (((field touching g 0 true).facetsBelow (g.dimensions.z - 1)).map fun (a, b, c) =>
      (⟨a, b, c⟩ : Triangle Fraction)).length < handleCount := by
    decide +kernel
  have hok := dualContourUsing_eq (κ := Fraction) hcheck hgrid
  rw [if_neg (by decide +kernel), if_neg (by rw [hleaks]; decide), Mesh.ofTriangles_eq_ok hfew] at hok
  exact ⟨_, hok, dualContour_sideCount_comm (.inl hok)⟩

end SolidSurface

import SolidSurface.Proofs.DualContour.Crossings
import SolidSurface.Proofs.Grid
import SolidSurface.Proofs.MarchingCubes.Sampling

/-! # The border contract

The border of a grid lies outside the bounds of the solid, so no sample on it should be inside. Both
extractors fail when one is. With valid settings and bounds there are two more ways to fail, however
well the solid behaves: the layers of the grid are too large for a vector, or the surface has more
triangles than a mesh has handles. No read is ever out of range and no vertex missing. What is
extracted is empty just when no sample is inside.
-/

namespace SolidSurface

variable {α κ : Type} [BEq κ] [Hashable κ]

theorem Mesh.isEmpty_ofList_iff {ts : List (Triangle α)} (h : ts.length ≤ handleCount) :
    (ofList ts h : Mesh α κ).isEmpty = true ↔ ts = [] := by
  simp [isEmpty, ofList]

variable [Scalar α]

/-- A sample on the border of the grid that is inside. -/
def IsLeak (s : Solid α) (g : Grid α) (p : LatticePoint) : Prop :=
  p.Below g.dimensions ∧ p.isBorder g.dimensions = true ∧ s.contains (g.position p) = true

/-- How an extraction ends whose mesh has `earlier z` triangles by the time that layer `z` is
sampled, and `total` at the end. -/
structure MeetsBorderContract (s : Solid α) (g : Grid α) (earlier : Nat → Nat) (total : Nat)
    (r : Except (ExtractionError α) (Mesh α κ)) : Prop where
  /-- A leak is met, as long as the mesh has not run out of handles before. -/
  border_iff : r = .error .insideOnBorder ↔ ∃ p, IsLeak s g p ∧ earlier p.z < handleCount
  full_iff : r = .error (.mesh .tooManySlots) ↔
    handleCount ≤ total ∧ ∀ p, IsLeak s g p → handleCount ≤ earlier p.z
  exists_ok : r ≠ .error .insideOnBorder → r ≠ .error (.mesh .tooManySlots) →
    ∃ m, r = .ok m ∧ (m.isEmpty = true ↔
      ∀ p : LatticePoint, p.Below g.dimensions → s.contains (g.position p) = false)

variable {s : Solid α} {g : Grid α}

theorem contains_eq_false_of_forall_not_isLeak (h : ∀ p, ¬IsLeak s g p) (p : LatticePoint)
    (hp : p.Below g.dimensions) (hborder : p.isBorder g.dimensions = true) :
    s.contains (g.position p) = false :=
  Bool.not_eq_true _ ▸ fun hin => h p ⟨hp, hborder, hin⟩

namespace MeetsBorderContract

variable {earlier : Nat → Nat} {total : Nat} {r : Except (ExtractionError α) (Mesh α κ)}

/-! ## The three outcomes -/

theorem of_border {p : LatticePoint} (hr : r = .error .insideOnBorder) (hp : IsLeak s g p)
    (hroom : earlier p.z < handleCount) : MeetsBorderContract s g earlier total r where
  border_iff := ⟨fun _ => ⟨p, hp, hroom⟩, fun _ => hr⟩
  full_iff := by
    refine ⟨fun h => ?_, fun h => absurd (h.2 p hp) (Nat.not_le.mpr hroom)⟩
    rw [hr] at h
    cases h
  exists_ok h := absurd hr h

theorem of_full (hr : r = .error (.mesh .tooManySlots)) (htotal : handleCount ≤ total)
    (hearlier : ∀ p, IsLeak s g p → handleCount ≤ earlier p.z) :
    MeetsBorderContract s g earlier total r where
  border_iff := by
    refine ⟨fun h => ?_, fun ⟨p, hp, hroom⟩ => absurd (hearlier p hp) (Nat.not_le.mpr hroom)⟩
    rw [hr] at h
    cases h
  full_iff := ⟨fun _ => ⟨htotal, hearlier⟩, fun _ => hr⟩
  exists_ok _ h := absurd hr h

theorem of_ok {m : Mesh α κ} (hr : r = .ok m) (hclear : ∀ p, ¬IsLeak s g p)
    (htotal : total < handleCount) (hempty : m.isEmpty = true ↔
      ∀ p : LatticePoint, p.Below g.dimensions → s.contains (g.position p) = false) :
    MeetsBorderContract s g earlier total r where
  border_iff := by
    refine ⟨fun h => ?_, fun ⟨p, hp, _⟩ => absurd hp (hclear p)⟩
    rw [hr] at h
    cases h
  full_iff := by
    refine ⟨fun h => ?_, fun h => absurd h.1 (Nat.not_le.mpr htotal)⟩
    rw [hr] at h
    cases h
  exists_ok _ _ := ⟨m, hr, hempty⟩

/-- Without a leak the number of triangles decides. -/
theorem exists_mesh (h : MeetsBorderContract s g earlier total r) (hclear : ∀ p, ¬IsLeak s g p)
    (htotal : total < handleCount) : ∃ m, r = .ok m ∧ (m.isEmpty = true ↔
      ∀ p : LatticePoint, p.Below g.dimensions → s.contains (g.position p) = false) := by
  refine h.exists_ok (fun hborder => ?_) fun hfull => ?_
  · obtain ⟨p, hp, -⟩ := h.border_iff.mp hborder
    exact hclear p hp
  · exact absurd (h.full_iff.mp hfull).1 (Nat.not_le.mpr htotal)

theorem eq_error_of_full (h : MeetsBorderContract s g earlier total r)
    (hclear : ∀ p, ¬IsLeak s g p) (htotal : handleCount ≤ total) :
    r = .error (.mesh .tooManySlots) :=
  h.full_iff.mpr ⟨htotal, fun p hp => absurd hp (hclear p)⟩

end MeetsBorderContract

/-! ## Marching cubes -/

theorem marchingCubes_meetsBorderContract [Keyed α κ] {c : MarchingCubesSettings α}
    (hgrid : Grid.ofBounds s.bounds c.spacing = .ok g) (hfits : g.SamplesFit) :
    MeetsBorderContract s g (fun z => (trianglesBelow s g z).length)
      (trianglesBelow s g g.dimensions.z).length (marchingCubes s c : Except _ (Mesh α κ)) := by
  rw [marchingCubes_eq_map hgrid]
  rcases midpointSurface_cases (κ := κ) (s := s) hfits with
    ⟨hclear, hroom, hm⟩ | ⟨z, hz, -, ⟨p, ⟨hx, hy, rfl⟩, hborder, hin⟩, hroom, hm⟩ |
    ⟨z, hz, hclear, hmany, hm⟩ <;> rw [hm]
  · have hborder := contains_eq_false_of_not_leaksAt hclear
    have hempty : trianglesBelow s g g.dimensions.z = [] ↔ _ :=
      List.map_eq_nil_iff.trans (MarchingCubes.latticeSurface_eq_nil_iff hborder)
    refine .of_ok rfl (fun p ⟨hp, hb, hin⟩ => ?_) hroom ?_
    · rw [hborder p hp hb] at hin
      cases hin
    · rw [← hempty, ← Mesh.isEmpty_ofList_iff (κ := κ) (Nat.le_of_lt hroom)]
      -- Moving vertices leaves the number of triangles alone.
      dsimp only
      split <;> exact Iff.rfl
  · exact .of_border rfl ⟨⟨hx, hy, hz⟩, hborder, hin⟩ hroom
  · refine .of_full rfl (Nat.le_trans hmany (length_trianglesBelow_mono hz)) ?_
    rintro p ⟨⟨hx, hy, -⟩, hborder, hin⟩
    have hlater : z < p.z := Nat.lt_of_not_le fun hle =>
      hclear p.z hle ⟨p, ⟨hx, hy, rfl⟩, hborder, hin⟩
    exact Nat.le_trans hmany (length_trianglesBelow_mono hlater)

theorem marchingCubes_of_not_samplesFit [Keyed α κ] {c : MarchingCubesSettings α}
    (hgrid : Grid.ofBounds s.bounds c.spacing = .ok g) (hfits : ¬g.SamplesFit) :
    (marchingCubes s c : Except _ (Mesh α κ)) = .error (.samplerStopped 0) := by
  rw [marchingCubes_eq_map hgrid, midpointSurface_of_not_samplesFit hfits]
  rfl

/-! ## Dual contouring -/

open DualContour

theorem dualContourUsing_meetsBorderContract {e : SurfaceEstimator α} {c : DualContourSettings α}
    (hcheck : c.check = .ok ()) (hgrid : Grid.ofBounds e.solid.bounds c.spacing = .ok g)
    (hfits : LayersFit g.dimensions) :
    MeetsBorderContract e.solid g (fun _ => 0)
      (2 * (crossedEdges g.dimensions fun p => e.solid.contains (g.position p)).length)
      (dualContourUsing e c : Except _ (Mesh α κ)) := by
  rw [dualContourUsing_eq hcheck hgrid, if_neg (not_not_intro hfits)]
  by_cases hleak : ∃ p, IsLeak e.solid g p
  · obtain ⟨p, hp, hborder, hin⟩ := hleak
    refine .of_border (if_pos ?_) ⟨hp, hborder, hin⟩ (by decide)
    rw [LatticeField.leaks, LatticePoint.anyBelow_eq_true_iff]
    exact ⟨p, hp, Bool.and_eq_true_iff.mpr ⟨hin, hborder⟩⟩
  · have hnone := not_exists.mp hleak
    have hborder := contains_eq_false_of_forall_not_isLeak hnone
    have hclear := LatticeField.leaks_eq_false_of_clearBelow
      (F := field e g c.regularization c.clip) fun p hp _ hb => hborder p hp hb
    obtain ⟨vertex, hvertex⟩ := (field e g c.regularization c.clip).exists_vertex 0
    have hlength : ((field e g c.regularization c.clip).facetsBelow (g.dimensions.z - 1)).length =
        2 * (crossedEdges g.dimensions fun p => e.solid.contains (g.position p)).length :=
      (LatticeField.showsCrossings_facetsBelow hborder hvertex).length_eq
    rw [if_neg (Bool.eq_false_iff.mp hclear)]
    rcases Nat.lt_or_ge (2 * (crossedEdges g.dimensions fun p =>
      e.solid.contains (g.position p)).length) handleCount with hroom | hmany
    · refine .of_ok (congrArg _ (Mesh.ofTriangles_eq_ok ?_)) hnone hroom ?_
      · rw [List.length_map, hlength]
        exact hroom
      · rw [Mesh.isEmpty_ofList_iff, List.map_eq_nil_iff]
        exact LatticeField.facetsBelow_eq_nil_iff hclear
    · refine .of_full (congrArg _ (Mesh.ofTriangles_eq_error ?_)) hmany fun p hp => absurd hp (hnone p)
      rw [List.length_map, hlength]
      exact hmany

theorem dualContourUsing_of_not_layersFit {e : SurfaceEstimator α} {c : DualContourSettings α}
    (hcheck : c.check = .ok ()) (hgrid : Grid.ofBounds e.solid.bounds c.spacing = .ok g)
    (hfits : ¬LayersFit g.dimensions) :
    (dualContourUsing e c : Except _ (Mesh α κ)) = .error .capacityOverflow := by
  rw [dualContourUsing_eq hcheck hgrid, if_pos hfits]

/-- Valid settings include valid settings of an estimator, so that there is one at hand. -/
theorem exists_dualContour_eq {c : DualContourSettings α} (hcheck : c.check = .ok ())
    (s : Solid α) : ∃ e : SurfaceEstimator α, e.solid = s ∧
      (dualContour s c : Except _ (Mesh α κ)) = dualContourUsing e c := by
  have hestimator : c.estimator.check = .ok () := by
    simp only [DualContourSettings.check, bind, Except.bind] at hcheck
    split at hcheck
    · cases hcheck
    · split at hcheck
      · cases hcheck
      · exact eq_ok_of_mapError_eq_ok hcheck
  obtain ⟨e, he, hsolid⟩ : ∃ e, SurfaceEstimator.make s c.estimator = .ok e ∧ e.solid = s := by
    rw [SurfaceEstimator.make, hestimator]
    exact ⟨_, rfl, rfl⟩
  refine ⟨e, hsolid, ?_⟩
  rw [dualContour, hcheck, he]
  rfl

/-- Whether an estimator is made or given makes no difference. -/
theorem exists_eq_dualContourUsing {c : DualContourSettings α} (hcheck : c.check = .ok ())
    {r : Except (ExtractionError α) (Mesh α κ)} (hr : r = dualContour s c ∨
      ∃ e : SurfaceEstimator α, e.solid = s ∧ r = dualContourUsing e c) :
    ∃ e : SurfaceEstimator α, e.solid = s ∧ r = dualContourUsing e c := by
  rcases hr with rfl | hgiven
  · exact exists_dualContour_eq hcheck s
  · exact hgiven

/-! ## Both extractors -/

theorem Grid.exists_ofBounds_eq_ok {bounds : Box α} {spacing : α}
    (hbounds : bounds.isValid = true) (hspacing : Scalar.isPositive spacing = true) :
    ∃ g, Grid.ofBounds bounds spacing = .ok g := by
  rw [Grid.ofBounds, hspacing, hbounds]
  exact ⟨_, rfl⟩

/-- With valid settings and bounds, with or without refinement and for any memory budget, both
extractors fail when a sample on the border of their grid is inside and otherwise give a mesh, which
is empty just when no sample is inside. But both fail on grids that have no room for a layer in
memory, and on surfaces with more triangles than there are handles. -/
theorem extractors_meetBorderContract [Keyed α κ] {c : MarchingCubesSettings α}
    {d : DualContourSettings α} (hbounds : s.bounds.isValid = true) (hc : c.check = .ok ())
    (hd : d.check = .ok ()) :
    (∃ g, Grid.ofBounds s.bounds c.spacing = .ok g ∧
        (g.SamplesFit → MeetsBorderContract s g (fun z => (trianglesBelow s g z).length)
          (trianglesBelow s g g.dimensions.z).length (marchingCubes s c : Except _ (Mesh α κ))) ∧
        (¬g.SamplesFit →
          (marchingCubes s c : Except _ (Mesh α κ)) = .error (.samplerStopped 0))) ∧
      ∃ g, Grid.ofBounds s.bounds d.spacing = .ok g ∧ ∀ r : Except _ (Mesh α κ),
        (r = dualContour s d ∨ ∃ e : SurfaceEstimator α, e.solid = s ∧ r = dualContourUsing e d) →
          (LayersFit g.dimensions → MeetsBorderContract s g (fun _ => 0)
            (2 * (crossedEdges g.dimensions fun p => s.contains (g.position p)).length) r) ∧
          (¬LayersFit g.dimensions → r = .error .capacityOverflow) := by
  have hcspacing : Scalar.isPositive c.spacing = true := by
    by_contra hneg
    rw [MarchingCubesSettings.check, if_neg hneg] at hc
    cases hc
  have hdspacing : Scalar.isPositive d.spacing = true := by
    by_contra hneg
    rw [Bool.not_eq_true] at hneg
    simp only [DualContourSettings.check, hneg, bind, Except.bind] at hd
    cases hd
  obtain ⟨g, hg⟩ := Grid.exists_ofBounds_eq_ok hbounds hcspacing
  obtain ⟨g', hg'⟩ := Grid.exists_ofBounds_eq_ok hbounds hdspacing
  refine ⟨⟨g, hg, marchingCubes_meetsBorderContract hg, marchingCubes_of_not_samplesFit hg⟩,
    g', hg', fun r hr => ?_⟩
  obtain ⟨e, rfl, rfl⟩ := exists_eq_dualContourUsing hd hr
  exact ⟨dualContourUsing_meetsBorderContract hd hg', dualContourUsing_of_not_layersFit hd hg'⟩

/-- A slab that is so wide and deep that a layer of samples does not fit into memory, with nothing
inside. -/
def vastSlab : Solid Fraction :=
  ⟨⟨⟨0, 0, 0⟩, ⟨3037000497, 3037000497, 1⟩⟩, fun _ => false⟩

theorem extractors_meetBorderContract_cornerPair :
    (∃ m : Mesh Fraction Fraction, marchingCubes cornerPair ⟨1, 3, 0⟩ = .ok m ∧
        m.isEmpty = false) ∧
      (∃ m : Mesh Fraction Fraction,
        dualContour cornerPair ⟨1, 0, 0, true, 0, .standard⟩ = .ok m ∧ m.isEmpty = false) ∧
      (marchingCubes vastSlab ⟨1, 0, 0⟩ : Except _ (Mesh Fraction Fraction)) =
        .error (.samplerStopped 0) ∧
      (dualContour vastSlab ⟨1, 0, 0, true, 0, .standard⟩ : Except _ (Mesh Fraction Fraction)) =
        .error .capacityOverflow := by
  have hin : cornerPair.contains (cornerPairGrid.position ⟨1, 1, 1⟩) = true := by decide +kernel
  have hnonempty : ∀ (earlier : Nat → Nat) (total : Nat) (r : Except _ (Mesh Fraction Fraction)),
      total < handleCount → MeetsBorderContract cornerPair cornerPairGrid earlier total r →
      ∃ m, r = .ok m ∧ m.isEmpty = false := by
    intro earlier total r htotal h
    obtain ⟨m, hm, hempty⟩ := h.exists_mesh (fun p ⟨hp, hborder, hleak⟩ => by
      rw [contains_cornerPair_of_isBorder hp hborder] at hleak
      cases hleak) htotal
    refine ⟨m, hm, Bool.eq_false_iff.mpr fun he => ?_⟩
    rw [hempty.mp he ⟨1, 1, 1⟩ (by decide)] at hin
    cases hin
  obtain ⟨⟨g₁, hg₁, hmarching, -⟩, g₂, hg₂, hdual⟩ :=
    extractors_meetBorderContract (κ := Fraction) (s := cornerPair) (c := ⟨1, 3, 0⟩)
      (d := ⟨1, 0, 0, true, 0, .standard⟩) (by decide +kernel) (by decide +kernel)
      (by decide +kernel)
  obtain rfl := Except.ok.inj (hg₁.symm.trans ofBounds_cornerPair)
  obtain rfl := Except.ok.inj (hg₂.symm.trans ofBounds_cornerPair)
  obtain ⟨⟨g₃, hg₃, -, hstopped⟩, g₄, hg₄, hoverflow⟩ :=
    extractors_meetBorderContract (κ := Fraction) (s := vastSlab) (c := ⟨1, 0, 0⟩)
      (d := ⟨1, 0, 0, true, 0, .standard⟩) (by decide +kernel) (by decide +kernel)
      (by decide +kernel)
  have hvast : ∀ g, Grid.ofBounds vastSlab.bounds 1 = .ok g →
      g.dimensions = ⟨3037000500, 3037000500, 4⟩ := by
    intro g hg
    obtain ⟨-, -, rfl⟩ := Grid.ofBounds_eq_ok_iff.mp hg
    decide +kernel
  refine ⟨hnonempty _ _ _ (by decide +kernel) (hmarching (by decide)),
    hnonempty _ _ _ (by decide +kernel) ((hdual _ (.inl rfl)).1 (by decide)),
    hstopped ?_, (hoverflow _ (.inl rfl)).2 ?_⟩
  · rw [Grid.SamplesFit, hvast g₃ hg₃]
    decide
  · rw [hvast g₄ hg₄]
    decide

end SolidSurface

import SolidSurface.Proofs.BorderContract
import SolidSurface.Proofs.Grid
import SolidSurface.Solid.Elementary

/-! # Solids that are outside wherever their bounds end

A grid is padded so that its border lies beyond the bounds of the solid, also where the bounds are
flat or a whole number of cells long. A solid that is outside wherever its bounds end is therefore
outside on the border, and gives no extractor a reason to stop. What is left are the limits of memory
and of handles, which such a solid can exceed like any other.
-/

namespace SolidSurface

open DualContour

variable {α κ : Type} [BEq κ] [Hashable κ]

/-- Refusals of settings or bounds, in contrast to failures of an extraction that is under way. -/
def ExtractionError.isRefusal : ExtractionError α → Bool
  | invalidSpacing _ => true
  | invalidBounds _ => true
  | invalidRegularization _ => true
  | estimator _ => true
  | _ => false

/-- How an extraction of `total` triangles ends that meets no sample inside on the border: with a
mesh, unless the layers of the grid do not fit into memory or there are too few handles. -/
structure EndsByRoom (fits : Prop) (unfit : ExtractionError α) (total : Nat)
    (r : Except (ExtractionError α) (Mesh α κ)) : Prop where
  exists_ok : fits → total < handleCount → ∃ m, r = .ok m
  eq_error_of_full : fits → handleCount ≤ total → r = .error (.mesh .tooManySlots)
  eq_error_of_not_fits : ¬fits → r = .error unfit

section Checks

variable [Scalar α]

theorem DualContourSettings.check_cases (d : DualContourSettings α) :
    d.check = .ok () ∨ ∃ e, d.check = .error e ∧ e.isRefusal = true := by
  simp only [check, bind, Except.bind]
  split
  · exact .inr ⟨_, rfl, rfl⟩
  · split
    · exact .inr ⟨_, rfl, rfl⟩
    · cases d.estimator.check with
      | ok _ => exact .inl rfl
      | error cause => exact .inr ⟨.estimator cause, rfl, rfl⟩

/-- What is left of the border contract without a leak. -/
theorem EndsByRoom.of_meetsBorderContract {s : Solid α} {g : Grid α} {fits : Prop}
    {unfit : ExtractionError α} {earlier : Nat → Nat} {total : Nat}
    {r : Except (ExtractionError α) (Mesh α κ)} (hclear : ∀ p, ¬IsLeak s g p)
    (hfits : fits → MeetsBorderContract s g earlier total r) (hunfit : ¬fits → r = .error unfit) :
    EndsByRoom fits unfit total r where
  exists_ok h htotal :=
    have ⟨m, hm, _⟩ := (hfits h).exists_mesh hclear htotal
    ⟨m, hm⟩
  eq_error_of_full h := (hfits h).eq_error_of_full hclear
  eq_error_of_not_fits := hunfit

end Checks

variable [MeasuringScalar α] {bounds : Box α} {s : Solid α} {g : Grid α} {spacing : α}

namespace Grid

/-- A sample on the border is beyond the bounds along some axis. -/
theorem exists_beyond_of_isBorder (hgrid : ofBounds bounds spacing = .ok g) {p : LatticePoint}
    (hp : p.isBorder g.dimensions = true) :
    ∃ a, (g.position p).get a < bounds.lower.get a ∨ bounds.upper.get a < (g.position p).get a := by
  obtain ⟨a, hfirst | hlast⟩ := LatticePoint.exists_get_of_isBorder hp
  · exact ⟨a, .inl (position_lt_lower hgrid hfirst)⟩
  · exact ⟨a, .inr (upper_lt_position hgrid hlast)⟩

theorem contains_eq_false_of_isBorder (hgrid : ofBounds bounds spacing = .ok g) {p : LatticePoint}
    (hp : p.isBorder g.dimensions = true) : bounds.contains (g.position p) = false := by
  obtain ⟨a, hbeyond⟩ := exists_beyond_of_isBorder hgrid hp
  rw [← Bool.not_eq_true, Box.contains_iff, not_forall]
  refine ⟨a, fun ⟨hlower, hupper⟩ => ?_⟩
  rcases hbeyond with h | h
  · exact absurd hlower (not_le.mpr h)
  · exact absurd hupper (not_le.mpr h)

/-- The bounds lie between the first and the last sample. -/
theorem between_of_contains (hgrid : ofBounds bounds spacing = .ok g) {q : Point α}
    (hq : bounds.contains q = true) (a : Axis) :
    (g.position ⟨0, 0, 0⟩).get a ≤ q.get a ∧
      q.get a ≤ (g.position (g.dimensions.map (· - 1))).get a := by
  obtain ⟨hlower, hupper⟩ := Box.contains_iff.mp hq a
  have hfirst : (⟨0, 0, 0⟩ : LatticePoint).get a = 0 := by cases a <;> rfl
  have hlast : (g.dimensions.map (· - 1)).get a + 1 = g.dimensions.get a := by
    obtain ⟨-, n, hn, -⟩ := exists_padding hgrid a
    rw [Vec3.get_map, hn]
    omega
  exact ⟨(position_lt_lower hgrid hfirst).le.trans hlower,
    hupper.trans (upper_lt_position hgrid hlast).le⟩

end Grid

/-- A solid that is outside wherever its valid bounds end has a grid of any spacing. Its border is
beyond the bounds and what the bounds hold is between its samples. Both extractors give a mesh on
it, unless dual contouring refuses its settings, a layer of the grid does not fit into memory or
there are too few handles for the triangles. -/
theorem extractors_accept_honest [Keyed α κ] (hbounds : s.bounds.isValid = true)
    (hout : ∀ p, s.bounds.contains p = false → s.contains p = false) (hspacing : 0 < spacing) :
    ∃ g, Grid.ofBounds s.bounds spacing = .ok g ∧
      (∀ p : LatticePoint, p.Below g.dimensions → p.isBorder g.dimensions = true →
        ∃ a, (g.position p).get a < s.bounds.lower.get a ∨
          s.bounds.upper.get a < (g.position p).get a) ∧
      (∀ q, s.bounds.contains q = true → ∀ a, (g.position ⟨0, 0, 0⟩).get a ≤ q.get a ∧
        q.get a ≤ (g.position (g.dimensions.map (· - 1))).get a) ∧
      (∀ c : MarchingCubesSettings α, c.spacing = spacing →
        EndsByRoom g.SamplesFit (.samplerStopped 0) (trianglesBelow s g g.dimensions.z).length
          (marchingCubes s c : Except _ (Mesh α κ))) ∧
      ∀ d : DualContourSettings α, d.spacing = spacing → ∀ r : Except _ (Mesh α κ),
        (r = dualContour s d ∨ ∃ e : SurfaceEstimator α, e.solid = s ∧ r = dualContourUsing e d) →
          (d.check = .ok () ∧ EndsByRoom (LayersFit g.dimensions) .capacityOverflow
            (2 * (crossedEdges g.dimensions fun p => s.contains (g.position p)).length) r) ∨
          ∃ err, d.check = .error err ∧ r = .error err ∧ err.isRefusal = true := by
  have hpositive := (Scalar.isPositive_iff spacing).mpr hspacing
  obtain ⟨g, hgrid⟩ := Grid.exists_ofBounds_eq_ok hbounds hpositive
  have hclear : ∀ p, ¬IsLeak s g p := by
    rintro p ⟨-, hborder, hin⟩
    rw [hout _ (Grid.contains_eq_false_of_isBorder hgrid hborder)] at hin
    cases hin
  refine ⟨g, hgrid, fun p _ hp => Grid.exists_beyond_of_isBorder hgrid hp,
    fun q hq => Grid.between_of_contains hgrid hq, fun c hc => ?_, fun d hd r hr => ?_⟩
  · subst hc
    exact .of_meetsBorderContract hclear (marchingCubes_meetsBorderContract hgrid)
      (marchingCubes_of_not_samplesFit hgrid)
  · subst hd
    rcases d.check_cases with hcheck | ⟨err, hcheck, hrefusal⟩
    · obtain ⟨e, rfl, rfl⟩ := exists_eq_dualContourUsing hcheck hr
      exact .inl ⟨hcheck, .of_meetsBorderContract hclear
        (dualContourUsing_meetsBorderContract hcheck hgrid)
        (dualContourUsing_of_not_layersFit hcheck hgrid)⟩
    · refine .inr ⟨err, hcheck, ?_, hrefusal⟩
      rcases hr with rfl | ⟨e, -, rfl⟩
      · rw [dualContour, hcheck]
        rfl
      · rw [dualContourUsing, hcheck]
        rfl

/-- A flat plate, exactly two cells long and without height. -/
def plate : Solid Fraction :=
  Cuboid.solid ⟨⟨⟨0, 0, 0⟩, ⟨1 + 1, 1, 0⟩⟩⟩

/-- A plate that is so wide and deep that a layer of samples does not fit into memory. -/
def vastPlate : Solid Fraction :=
  Cuboid.solid ⟨vastSlab.bounds⟩

theorem extractors_accept_honest_plate :
    (∃ g, Grid.ofBounds plate.bounds 1 = .ok g ∧ g.dimensions = ⟨5, 4, 3⟩ ∧
      (∃ m : Mesh Fraction Fraction, marchingCubes plate ⟨1, 2, 0⟩ = .ok m) ∧
      ∃ m : Mesh Fraction Fraction, dualContour plate ⟨1, 0, 0, true, 0, .standard⟩ = .ok m) ∧
    (marchingCubes vastPlate ⟨1, 2, 0⟩ : Except _ (Mesh Fraction Fraction)) =
      .error (.samplerStopped 0) ∧
    (dualContour vastPlate ⟨1, 0, 0, true, 0, .standard⟩ : Except _ (Mesh Fraction Fraction)) =
      .error .capacityOverflow := by
  have hspacing : (0 : Fraction) < 1 := by decide +kernel
  have hcheck : (⟨1, 0, 0, true, 0, .standard⟩ : DualContourSettings Fraction).check = .ok () := by
    decide +kernel
  constructor
  · obtain ⟨g, hgrid, -, -, hmarching, hdual⟩ := extractors_accept_honest (κ := Fraction)
      (s := plate) (by decide +kernel) (fun _ hp => hp) hspacing
    refine ⟨g, hgrid, ?_⟩
    obtain ⟨-, -, rfl⟩ := Grid.ofBounds_eq_ok_iff.mp hgrid
    refine ⟨by decide +kernel, (hmarching ⟨1, 2, 0⟩ rfl).exists_ok (by decide +kernel)
      (by decide +kernel), ?_⟩
    rcases hdual ⟨1, 0, 0, true, 0, .standard⟩ rfl _ (.inl rfl) with ⟨-, hends⟩ | ⟨e, herror, -⟩
    · exact hends.exists_ok (by decide +kernel) (by decide +kernel)
    · rw [hcheck] at herror
      cases herror
  · obtain ⟨g, hgrid, -, -, hmarching, hdual⟩ := extractors_accept_honest (κ := Fraction)
      (s := vastPlate) (by decide +kernel) (fun _ hp => hp) hspacing
    obtain ⟨-, -, rfl⟩ := Grid.ofBounds_eq_ok_iff.mp hgrid
    refine ⟨(hmarching ⟨1, 2, 0⟩ rfl).eq_error_of_not_fits (by decide +kernel), ?_⟩
    rcases hdual ⟨1, 0, 0, true, 0, .standard⟩ rfl _ (.inl rfl) with ⟨-, hends⟩ | ⟨e, herror, -⟩
    · exact hends.eq_error_of_not_fits (by decide +kernel)
    · rw [hcheck] at herror
      cases herror

end SolidSurface

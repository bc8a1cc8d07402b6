import SolidSurface.Proofs.MarchingCubes.Snapping

/-! # Half-cell coordinates

In exact arithmetic finding the nearest half-cell coordinates undoes taking the position of
half-cell coordinates. A point for which none are found is at least a quarter of a cell off the
lattice, and a vertex is moved between two samples of the lattice only.
-/

namespace SolidSurface

open DualContour MarchingCubes

variable {α : Type}

/-- Half-cell coordinates up to those of the last sample along each axis. -/
def Grid.HasHalfCell (g : Grid α) (h : LatticePoint) : Prop :=
  ∀ a, h.get a ≤ 2 * (g.dimensions.get a - 1)

/-- The edge between the sample `low` and the next one along `a` is an edge of the lattice, `h` is
its middle, and one step from `h` along `a` either way leads to its ends. -/
structure Grid.IsMiddleOf (g : Grid α) (h low : LatticePoint) (a : Axis) : Prop where
  eq_middle : h = middle low (stepForward low a)
  low_below : low.Below g.dimensions
  high_below : (stepForward low a).Below g.dimensions
  neighbours_eq : h.neighbours a = (low.map (2 * ·), (stepForward low a).map (2 * ·))

/-- The odd coordinate of a middle is neither the first nor the last one, which are even, so that
both ends are samples. -/
theorem Grid.HasHalfCell.isMiddleOf {g : Grid α} {low : LatticePoint} {a : Axis}
    (hpos : ∀ b, 0 < g.dimensions.get b) (hh : g.HasHalfCell (middle low (stepForward low a))) :
    g.IsMiddleOf (middle low (stepForward low a)) low a := by
  have hrange : ∀ b, 2 * low.get b + (if b = a then 1 else 0) ≤ 2 * (g.dimensions.get b - 1) := by
    intro b
    rw [← get_middle_stepForward]
    exact hh b
  have hlow : low.Below g.dimensions := by
    refine LatticePoint.below_iff_forall_get.mpr fun b => ?_
    have := hrange b
    have := hpos b
    omega
  have hnext : low.get a + 1 < g.dimensions.get a := by
    have hself := hrange a
    rw [if_pos rfl] at hself
    omega
  exact ⟨rfl, hlow, hlow.stepForward hnext, neighbours_middle low a⟩

section Counting

variable [CountingScalar α] {g : Grid α} {bounds : Box α} {cellSize : α} {h : LatticePoint}
  {p : Point α}

namespace Grid

/-! ## Where no coordinates are found -/

/-- A distance is turned down when it is rounded to a whole number outside the range, so it cannot
be closer than one half to the range. -/
theorem le_or_le_of_halfCoordinate?_eq_none {n : Nat} {d : α} (h : halfCoordinate? n d = none) :
    d ≤ -(1 / 2) ∨ ((2 * (n - 1) : Nat) : α) + 1 / 2 ≤ d := by
  obtain ⟨z, hnear, hz⟩ := exists_halfCoordinate?_eq n d
  rw [h, eq_comm, ite_eq_right_iff] at hz
  rw [abs_le] at hnear
  by_cases hneg : z < 0
  · have hbefore : (z : α) ≤ -1 := by exact_mod_cast Int.le_sub_one_of_lt hneg
    left
    linarith
  · have hpast : ((2 * (n - 1) : Nat) : ℤ) < z := by
      by_contra hle
      exact Option.some_ne_none _ (hz ⟨not_lt.mp hneg, not_lt.mp hle⟩)
    have hbehind : ((2 * (n - 1) : Nat) : α) + 1 ≤ z := by exact_mod_cast Int.add_one_le_of_lt hpast
    right
    linarith

theorem HasHalfCell.of_halfCoordinates? (hh : g.halfCoordinates? p = some h) : g.HasHalfCell h :=
  fun a => (halfCoordinate?_spec (halfCoordinates?_eq_some_iff.mp hh a)).1

theorem exists_halfCoordinate?_eq_none (hp : g.halfCoordinates? p = none) :
    ∃ a, halfCoordinate? (g.dimensions.get a)
      ((p.get a - g.origin.get a) / (g.cellSize * Scalar.half)) = none := by
  by_contra hsome
  simp only [not_exists, ← ne_eq, Option.ne_none_iff_exists'] at hsome
  obtain ⟨x, hx⟩ := hsome .x
  obtain ⟨y, hy⟩ := hsome .y
  obtain ⟨z, hz⟩ := hsome .z
  have hfound : g.halfCoordinates? p = some ⟨x, y, z⟩ := by
    refine halfCoordinates?_eq_some_iff.mpr fun a => ?_
    cases a
    exacts [hx, hy, hz]
  exact Option.some_ne_none _ (hfound.symm.trans hp)

/-- A point without half-cell coordinates is a quarter of a cell before the first sample or behind
the last one. -/
theorem exists_beyond_of_halfCoordinates?_eq_none (hcell : 0 < g.cellSize)
    (hp : g.halfCoordinates? p = none) :
    ∃ a, p.get a ≤ (g.position ⟨0, 0, 0⟩).get a - g.cellSize / 4 ∨
      (g.position (g.dimensions.map (· - 1))).get a + g.cellSize / 4 ≤ p.get a := by
  obtain ⟨a, ha⟩ := exists_halfCoordinate?_eq_none hp
  have hzero : (⟨0, 0, 0⟩ : LatticePoint).get a = 0 := by cases a <;> rfl
  have hoff := le_or_le_of_halfCoordinate?_eq_none ha
  rw [Scalar.half_eq, mul_one_div, div_le_iff₀ (half_pos hcell),
    le_div_iff₀ (half_pos hcell)] at hoff
  refine ⟨a, ?_⟩
  rw [get_position_eq, get_position_eq, hzero, Vec3.get_map, Nat.cast_zero]
  push_cast at hoff
  rcases hoff with hbefore | hbehind
  · left
    linarith
  · right
    linarith

/-! ## Grids around bounds -/

/-- A grid around bounds has samples along every axis. -/
theorem dimensions_pos (hgrid : ofBounds bounds cellSize = .ok g) (a : Axis) :
    0 < g.dimensions.get a := by
  obtain ⟨-, -, rfl⟩ := ofBounds_eq_ok_iff.mp hgrid
  rw [Vec3.get_map, sampleCount, CountingScalar.wrapIndex_eq]
  omega

end Grid

/-- A vertex that is moved ends between the two samples beside its half-cell coordinates. -/
theorem exists_isMiddleOf_of_snappedVertex? (hpos : ∀ a, 0 < g.dimensions.get a) {s : Solid α}
    {k : Nat} {q : Point α} (hq : snappedVertex? s g k p = some q) :
    ∃ h low a, g.halfCoordinates? p = some h ∧ g.IsMiddleOf h low a ∧
      (q = bisect s (g.position low) (g.position (stepForward low a)) k ∨
        q = bisect s (g.position (stepForward low a)) (g.position low) k) := by
  obtain ⟨b, c, hsnaps⟩ : ∃ b c, SnapsAlong s g p b c := by
    by_contra hnot
    have hnone := snappedVertex?_eq_none (fun b c h => hnot ⟨b, c, h⟩) k
    exact Option.some_ne_none _ (hq.symm.trans hnone)
  obtain ⟨a, low, hends⟩ := exists_edgeEnds hsnaps.neighbours
  have hnearest := hends.middle_eq ▸ hsnaps.nearest
  have htarget : bisect s (g.position b) (g.position c) k = q := by
    rw [hsnaps.snappedVertex?_eq, Grid.evenPosition_eq, Grid.evenPosition_eq] at hq
    exact Option.some.inj hq
  refine ⟨_, low, a, hnearest, (Grid.HasHalfCell.of_halfCoordinates? hnearest).isMiddleOf hpos, ?_⟩
  rcases hends with ⟨rfl, rfl⟩ | ⟨rfl, rfl⟩
  · exact .inl htarget.symm
  · exact .inr htarget.symm

/-- On a grid around bounds, half-cell coordinates are those of their own position, those of a
sample are even, and a middle of an edge is one step away from two samples. What is found for a
point is on the lattice and, along each axis, at most a quarter of a cell away; where nothing is
found, the point is off the lattice by a quarter of a cell or more. Vertices are moved between two
samples beside the coordinates that were found. -/
theorem Grid.halfCoordinates?_nearest (hgrid : ofBounds bounds cellSize = .ok g) :
    (∀ h, g.HasHalfCell h → g.halfCoordinates? (g.halfCellPosition h) = some h ∧
      ∀ a, h.edgeAxis? = some a → ∃ low, g.IsMiddleOf h low a) ∧
    (∀ p, g.halfCellPosition (p.map (2 * ·)) = g.position p) ∧
    ∀ p,
      (∀ h, g.halfCoordinates? p = some h →
        g.HasHalfCell h ∧ ∀ a, |p.get a - (g.halfCellPosition h).get a| ≤ g.cellSize / 4) ∧
      (g.halfCoordinates? p = none →
        ∃ a, p.get a ≤ (g.position ⟨0, 0, 0⟩).get a - g.cellSize / 4 ∨
          (g.position (g.dimensions.map (· - 1))).get a + g.cellSize / 4 ≤ p.get a) ∧
      ∀ s k q, snappedVertex? s g k p = some q →
        ∃ h low a, g.halfCoordinates? p = some h ∧ g.IsMiddleOf h low a ∧
          (q = bisect s (g.position low) (g.position (stepForward low a)) k ∨
            q = bisect s (g.position (stepForward low a)) (g.position low) k) := by
  have hcell := (cellSize_pos hgrid).2
  have hpos := dimensions_pos hgrid
  refine ⟨fun h hh => ⟨halfCoordinates?_halfCellPosition hcell hh, fun a hedge => ?_⟩,
    g.halfCellPosition_double, fun p => ⟨fun h hfound => ⟨.of_halfCoordinates? hfound, ?_⟩,
      exists_beyond_of_halfCoordinates?_eq_none hcell,
      fun _ _ _ => exists_isMiddleOf_of_snappedVertex? hpos⟩⟩
  · obtain ⟨low, rfl⟩ := exists_middle_of_edgeAxis? hedge
    exact ⟨low, hh.isMiddleOf hpos⟩
  · intro a
    rw [← abs_of_pos hcell]
    exact abs_sub_le_of_halfCoordinates? hcell.ne' hfound a

end Counting

/-- A point two fifths of the way along an edge has the coordinates of its middle, and moves between
the ends of that edge; a point far before the first sample has none. -/
theorem Grid.halfCoordinates?_nearest_unitCuboid :
    ofBounds unitCuboid.bounds 1 = .ok unitCuboidGrid ∧
      unitCuboidGrid.halfCoordinates? ⟨7 / 5, 1, 1⟩ = some ⟨5, 4, 4⟩ ∧
      (unitCuboidGrid.HasHalfCell ⟨5, 4, 4⟩ ∧ ∀ a, |(⟨7 / 5, 1, 1⟩ : Point Fraction).get a -
        (unitCuboidGrid.halfCellPosition ⟨5, 4, 4⟩).get a| ≤ unitCuboidGrid.cellSize / 4) ∧
      (∃ low a, unitCuboidGrid.IsMiddleOf ⟨5, 4, 4⟩ low a) ∧
      unitCuboidGrid.halfCoordinates? ⟨-5, 0, 0⟩ = none ∧
      ∃ a, (⟨-5, 0, 0⟩ : Point Fraction).get a ≤
          (unitCuboidGrid.position ⟨0, 0, 0⟩).get a - unitCuboidGrid.cellSize / 4 ∨
        (unitCuboidGrid.position (unitCuboidGrid.dimensions.map (· - 1))).get a +
          unitCuboidGrid.cellSize / 4 ≤ (⟨-5, 0, 0⟩ : Point Fraction).get a := by
  have hgrid : ofBounds unitCuboid.bounds 1 = .ok unitCuboidGrid := by with_unfolding_all rfl
  have hfound : unitCuboidGrid.halfCoordinates? ⟨7 / 5, 1, 1⟩ = some ⟨5, 4, 4⟩ := by
    decide +kernel
  have hnone : unitCuboidGrid.halfCoordinates? ⟨-5, 0, 0⟩ = none := by decide +kernel
  obtain ⟨hown, -, hpoint⟩ := halfCoordinates?_nearest hgrid
  obtain ⟨hnear, -, -⟩ := hpoint ⟨7 / 5, 1, 1⟩
  obtain ⟨-, hbeyond, -⟩ := hpoint ⟨-5, 0, 0⟩
  have hhalf := (hnear _ hfound).1
  obtain ⟨low, hlow⟩ := (hown _ hhalf).2 .x rfl
  exact ⟨hgrid, hfound, hnear _ hfound, ⟨low, .x, hlow⟩, hnone, hbeyond hnone⟩

end SolidSurface
